import MessageQueue.Common.Helper
import MessageQueue.Common.SqliteHelper

/-! The messages of `request.proto`. Every request carries its own id and that of its channel. -/
namespace MessageQueue

inductive Request
  | openChannel (rid cid : String)
  | closeChannel (rid cid : String)
  | declareExchange (rid cid exchangeName : String) (exchangeType : ExchangeType)
      (durable autoDelete : Bool) (args : Args)
  | deleteExchange (rid cid exchangeName : String)
  | declareQueue (rid cid queueName : String) (exclusive durable autoDelete : Bool) (args : Args)
  | deleteQueue (rid cid queueName : String)
  | queueBind (rid cid exchangeName queueName bindingKey : String)
  | queueUnBind (rid cid exchangeName queueName : String)
  | basicPublish (rid cid exchangeName body : String) (properties : Option BasicProperties)
  | basicAck (rid cid queueName messageId : String)
  | basicConsume (rid cid consumerTag queueName : String) (autoAck : Bool)
  | basicCancel (rid cid consumerTag queueName : String)
  deriving DecidableEq

namespace Request

def rid : Request → String
  | openChannel rid _ | closeChannel rid _ | declareExchange rid .. | deleteExchange rid ..
  | declareQueue rid .. | deleteQueue rid .. | queueBind rid .. | queueUnBind rid ..
  | basicPublish rid .. | basicAck rid .. | basicConsume rid .. | basicCancel rid .. => rid

def cid : Request → String
  | openChannel _ cid | closeChannel _ cid | declareExchange _ cid .. | deleteExchange _ cid ..
  | declareQueue _ cid .. | deleteQueue _ cid .. | queueBind _ cid .. | queueUnBind _ cid ..
  | basicPublish _ cid .. | basicAck _ cid .. | basicConsume _ cid .. | basicCancel _ cid .. => cid

end Request

/-- What the broker sends: the answer to a request, or a message for a consumer. -/
inductive Response
  | common (rid cid : String) (ok : Bool)
  | consume (cid consumerTag body : String) (properties : Option BasicProperties)
  deriving DecidableEq

namespace Response

def cid : Response → String
  | common _ cid _ => cid
  | consume cid .. => cid

end Response
end MessageQueue
