import MessageQueue.Broker.Literals
import MessageQueue.Broker.Topology
import MessageQueue.Server.Broker

/-! The statements that an operation may execute. As long as the strings in them are clean, each
is read as it is meant, and the tables hold what the mappers are modelled to put there. -/
namespace MessageQueue
open Base

instance : DecidablePred Clean := fun _ => inferInstanceAs (Decidable (_ ∧ _))

namespace MapperStatement

def Clean (s : MapperStatement) : Prop := ∀ x ∈ s.given, MessageQueue.Clean x

instance (s : MapperStatement) : Decidable s.Clean := inferInstanceAs (Decidable (∀ x ∈ _, _))

/-- Then working on the rows is what the text does. -/
theorem Clean.intact {s : MapperStatement} (h : s.Clean) : s.Intact :=
  ⟨s.oneStatement_iff.mpr h,s.exact h⟩

end MapperStatement

namespace HostOp

def statements : HostOp → List MapperStatement
  | .declareExchange name type durable autoDelete args =>
    [.insertExchange ⟨name,type,durable,autoDelete,args⟩]
  | .deleteExchange name => [.removeByExchange name,.removeExchange name]
  | .declareQueue qname durable exclusive autoDelete args =>
    [.insertQueue ⟨qname,durable,exclusive,autoDelete,args⟩]
  | .deleteQueue name => [.removeByQueue name,.deleteQueue name]
  | .bind ename qname key => [.insertBinding ⟨ename,qname,key⟩]
  | .unBind ename qname => [.removeBinding ename qname]
  | _ => []

def Clean (op : HostOp) : Prop := ∀ s ∈ op.statements, s.Clean

instance (op : HostOp) : Decidable op.Clean := inferInstanceAs (Decidable (∀ s ∈ _, _))

end HostOp

/-- The statements that a request may lead to. -/
def Request.statements : Request → List MapperStatement
  | .declareExchange _ _ exchangeName type durable autoDelete args =>
    [.insertExchange ⟨exchangeName,type,durable,autoDelete,args⟩]
  | .deleteExchange _ _ exchangeName =>
    [.removeByExchange exchangeName,.removeExchange exchangeName]
  | .declareQueue _ _ queueName exclusive durable autoDelete args =>
    [.insertQueue ⟨queueName,durable,exclusive,autoDelete,args⟩]
  | .deleteQueue _ _ queueName => [.removeByQueue queueName,.deleteQueue queueName]
  | .queueBind _ _ exchangeName queueName bindingKey =>
    [.insertBinding ⟨exchangeName,queueName,bindingKey⟩]
  | .queueUnBind _ _ exchangeName queueName => [.removeBinding exchangeName queueName]
  | _ => []

namespace Event

def statements : Event → List MapperStatement
  | .request _ req _ _ => req.statements
  | _ => []

def Clean (ev : Event) : Prop := ∀ s ∈ ev.statements, s.Clean

instance (ev : Event) : Decidable ev.Clean := inferInstanceAs (Decidable (∀ s ∈ _, _))

end Event
end MessageQueue
