import MessageQueue.Server.Statements
import MessageQueue.Common.SqliteHelper

/-! Names inside the statements. A text reads as the statement that it is meant to be exactly if
no string in it has a quote or a NUL, since the mappers splice the strings in as they are. -/
namespace MessageQueue
open Base

/-- No quote, and no NUL. -/
def Clean (s : String) : Prop := '\'' ∉ s.toList ∧ '\x00' ∉ s.toList

/-- Nothing that a reader would take for the end of a literal, of a statement or of the text. -/
def Inert (cs : List Char) : Prop := '\'' ∉ cs ∧ ';' ∉ cs ∧ '\x00' ∉ cs

instance (cs : List Char) : Decidable (Inert cs) := inferInstanceAs (Decidable (_ ∧ _ ∧ _))

theorem Inert.append {a b : List Char} (ha : Inert a) (hb : Inert b) : Inert (a ++ b) := by
  obtain ⟨ha₁,ha₂,ha₃⟩ := ha
  obtain ⟨hb₁,hb₂,hb₃⟩ := hb
  exact ⟨by simp [ha₁,hb₁],by simp [ha₂,hb₂],by simp [ha₃,hb₃]⟩

theorem inert_number (n : ℤ) : Inert (toString n).toList := by
  have hdigits : ∀ m : ℕ, Inert m.repr.toList := by
    intro m
    have hd : ∀ c ∈ m.repr.toList, c.isDigit := by
      intro c hc
      rw [Nat.toList_repr] at hc
      exact Nat.isDigit_of_mem_toDigits (by decide) (by decide) hc
    refine ⟨fun hc => ?_,fun hc => ?_,fun hc => ?_⟩ <;> exact absurd (hd _ hc) (by decide)
  cases n with
  | ofNat m => exact hdigits m
  | negSucc m =>
    have hneg : (toString (Int.negSucc m)).toList = "-".toList ++ (m+1).repr.toList := by
      rw [← String.toList_append]
      rfl
    rw [hneg]
    exact Inert.append (by decide) (hdigits (m+1))

theorem inert_bool (b : Bool) : Inert (boolText b).toList := by
  cases b <;> decide

namespace MapperStatement

/-- The texts before the strings, with the strings. -/
def parts : MapperStatement → List (List Char × List Char)
  | .insertBinding b =>
    [("insert into binding_table values(".toList,b.nameExchange.toList),
      (",".toList,b.nameQueue.toList),(",".toList,b.bindingKey.toList)]
  | .removeBinding e q =>
    [("delete from binding_table where name_exchange=".toList,e.toList),
      (" and name_queue=".toList,q.toList)]
  | .removeByExchange e => [("delete from binding_table where name_exchange=".toList,e.toList)]
  | .removeByQueue q => [("delete from binding_table where name_queue=".toList,q.toList)]
  | .insertExchange exp =>
    [("insert into exchange_table values(".toList,exp.name.toList),
      (", ".toList ++ (toString exp.type.number.toInt).toList ++ ", ".toList ++
        (boolText exp.durable).toList ++ ", ".toList ++ (boolText exp.autoDelete).toList ++
        ", ".toList,exp.args.getArgs.toList)]
  | .removeExchange name => [("delete from exchange_table where name=".toList,name.toList)]
  | .insertQueue queue =>
    [("insert into queue_table values(".toList,queue.name.toList),
      (",".toList ++ (boolText queue.durable).toList ++ ",".toList ++
        (boolText queue.exclusive).toList ++ ",".toList ++ (boolText queue.autoDelete).toList ++
        ",".toList,queue.args.getArgs.toList)]
  | .deleteQueue name => [("delete from queue_table where name = ".toList,name.toList)]

/-- The text after the last string, up to the semicolon. -/
def last : MapperStatement → List Char
  | .insertBinding _ => ")".toList
  | .insertExchange _ => ")".toList
  | .insertQueue _ => ")".toList
  | .removeByExchange _ => " ".toList
  | _ => []

/-- Where a quote begins or ends a string. -/
theorem text_eq (s : MapperStatement) : s.text.toList = Sql.splice s.parts (s.last ++ [';']) := by
  have hq : "'".toList = ['\''] := rfl
  have hqc : "',".toList = '\''::",".toList := rfl
  have hqcb : "', ".toList = '\''::", ".toList := rfl
  have hqs : "';".toList = ['\'',';'] := rfl
  have hend : "');".toList = '\''::(")".toList ++ [';']) := rfl
  have hexchange : "delete from binding_table where name_exchange='".toList =
      "delete from binding_table where name_exchange=".toList ++ ['\''] := rfl
  cases s with
  | insertBinding b =>
    unfold text BindingMapper.insertText
    simp only [parts,last,Sql.splice,String.toList_append,hq,hqc,hend,List.append_assoc,
      List.cons_append,List.nil_append]
  | removeBinding e q =>
    have hnext : "' and name_queue='".toList = '\''::(" and name_queue=".toList ++ ['\'']) := rfl
    unfold text BindingMapper.removeText
    simp only [parts,last,Sql.splice,String.toList_append,hexchange,hnext,hqs,List.append_assoc,
      List.cons_append,List.nil_append]
  | removeByExchange e =>
    have hnext : "' ;".toList = '\''::(" ".toList ++ [';']) := rfl
    unfold text BindingMapper.removeByExchangeText
    simp only [parts,last,Sql.splice,String.toList_append,hexchange,hnext,List.append_assoc,
      List.cons_append,List.nil_append]
  | removeByQueue q =>
    have h₁ : "delete from binding_table where name_queue='".toList =
        "delete from binding_table where name_queue=".toList ++ ['\''] := rfl
    unfold text BindingMapper.removeByQueueText
    simp only [parts,last,Sql.splice,String.toList_append,h₁,hqs,List.append_assoc,
      List.cons_append,List.nil_append]
  | insertExchange exp =>
    unfold text ExchangeMapper.insertText
    simp only [parts,last,Sql.splice,String.toList_append,hq,hqcb,hend,List.append_assoc,
      List.cons_append,List.nil_append]
  | removeExchange name =>
    unfold text ExchangeMapper.removeText
    simp only [parts,last,Sql.splice,String.toList_append,hq,hqs,List.append_assoc,
      List.cons_append,List.nil_append]
  | insertQueue queue =>
    unfold text QueueMapper.insertText
    simp only [parts,last,Sql.splice,String.toList_append,hq,hqc,hend,List.append_assoc,
      List.cons_append,List.nil_append]
  | deleteQueue name =>
    have h₁ : "delete from queue_table where name = '".toList =
        "delete from queue_table where name = ".toList ++ ['\''] := rfl
    unfold text QueueMapper.deleteQueueText
    simp only [parts,last,Sql.splice,String.toList_append,h₁,hqs,List.append_assoc,
      List.cons_append,List.nil_append]

theorem given_eq (s : MapperStatement) : s.given.map String.toList = s.parts.map Prod.snd := by
  cases s <;> rfl

theorem inert_last (s : MapperStatement) : Inert s.last := by
  have hclose : Inert ")".toList := by decide
  have hblank : Inert " ".toList := by decide
  have hnil : Inert [] := by decide
  cases s with
  | insertBinding => exact hclose
  | insertExchange => exact hclose
  | insertQueue => exact hclose
  | removeByExchange => exact hblank
  | _ => exact hnil

theorem frame (s : MapperStatement) : Sql.Frame s.parts s.last := by
  have hcomma : Inert ",".toList := by decide
  have hblank : Inert ", ".toList := by decide
  cases s with
  | insertBinding b =>
    refine ⟨?_,by simp [parts],inert_last _⟩
    simp only [parts,List.forall_mem_cons,List.not_mem_nil,false_imp_iff,implies_true,and_true]
    exact ⟨by decide,by decide,by decide⟩
  | insertExchange exp =>
    refine ⟨?_,by simp [parts],inert_last _⟩
    simp only [parts,List.forall_mem_cons,List.not_mem_nil,false_imp_iff,implies_true,and_true]
    exact ⟨by decide,((((((hblank.append (inert_number _)).append hblank).append
      (inert_bool _)).append hblank).append (inert_bool _)).append hblank)⟩
  | insertQueue queue =>
    refine ⟨?_,by simp [parts],inert_last _⟩
    simp only [parts,List.forall_mem_cons,List.not_mem_nil,false_imp_iff,implies_true,and_true]
    exact ⟨by decide,((((((hcomma.append (inert_bool _)).append hcomma).append
      (inert_bool _)).append hcomma).append (inert_bool _)).append hcomma)⟩
  | removeBinding e q =>
    refine ⟨?_,by simp [parts],inert_last _⟩
    simp only [parts,List.forall_mem_cons,List.not_mem_nil,false_imp_iff,implies_true,and_true]
    exact ⟨by decide,by decide⟩
  | _ =>
    refine ⟨?_,by simp [parts],inert_last _⟩
    simp only [parts,List.forall_mem_cons,List.not_mem_nil,false_imp_iff,implies_true,and_true]
    decide

/-- A text is one statement whose literals are the strings exactly if the strings are clean. -/
theorem oneStatement_iff (s : MapperStatement) :
    Sql.OneStatement (Sql.read s.text.toList) (s.given.map String.toList) ↔
      ∀ x ∈ s.given, Clean x := by
  rw [text_eq,given_eq,Sql.read_splice_iff s.frame]
  have hgiven : (∀ x ∈ s.given.map String.toList, '\'' ∉ x ∧ '\x00' ∉ x) ↔
      ∀ x ∈ s.given, Clean x := List.forall_mem_map
  rw [given_eq] at hgiven
  exact List.forall_mem_map.symm.trans hgiven

/-- What the text is read as does what the mapper is modelled to do, whatever the tables are. -/
def Exact : MapperStatement → Prop
  | .removeBinding e q => ∀ db, BindingMapper.remove db e q =
      db.exec fun db => db.actText (BindingMapper.removeText e q)
  | .removeByExchange e => ∀ db, BindingMapper.removeByExchange db e =
      db.exec fun db => db.actText (BindingMapper.removeByExchangeText e)
  | .removeByQueue q => ∀ db, BindingMapper.removeByQueue db q =
      db.exec fun db => db.actText (BindingMapper.removeByQueueText q)
  | .removeExchange name => ∀ db, ExchangeMapper.remove db name =
      db.exec fun db => db.actText (ExchangeMapper.removeText name)
  | .deleteQueue name => ∀ db, QueueMapper.deleteQueue db name =
      db.exec fun db => db.actText (QueueMapper.deleteQueueText name)
  | _ => True

/-! What the deletions read as. -/

section Deletions
variable {e q name : String}

theorem read_parts {s : MapperStatement} (h : ∀ x ∈ s.given, Clean x) :
    Sql.read s.text.toList = Sql.lexFrom .between (Sql.splice s.parts (s.last ++ [';'])) := by
  have hgiven : ∀ x ∈ s.given.map String.toList, '\x00' ∉ x :=
    List.forall_mem_map.mpr fun x hx => (h x hx).2
  rw [given_eq] at hgiven
  rw [text_eq,Sql.read_eq (s.frame.nul_not_mem fun p hp => hgiven _ (List.mem_map_of_mem hp))]

theorem delete_removeBinding (he : Clean e) (hq : Clean q) :
    (Sql.read (removeBinding e q).text.toList).bind Sql.delete = some ⟨"binding_table".toList,
      [[(.column "name_exchange".toList,.text e.toList),
        (.column "name_queue".toList,.text q.toList)]]⟩ := by
  rw [read_parts (by simp [given,he,hq])]
  have hs := Sql.lexFrom_spliced "delete from binding_table where name_exchange=".toList
    (" and name_queue=".toList ++ '\''::(q.toList ++ '\''::[';'])) (by rfl) he.1 (by simp)
  have hs' := Sql.lexFrom_spliced " and name_queue=".toList
    [';'] (by rfl) hq.1
    (by decide)
  rw [hs'] at hs
  refine (congrArg (·.bind Sql.delete) hs).trans ?_
  rfl

theorem delete_removeByExchange (he : Clean e) :
    (Sql.read (removeByExchange e).text.toList).bind Sql.delete =
      some ⟨"binding_table".toList,[[(.column "name_exchange".toList,.text e.toList)]]⟩ := by
  rw [read_parts (by simp [given,he])]
  have hs := Sql.lexFrom_spliced "delete from binding_table where name_exchange=".toList
    " ;".toList (by rfl) he.1 (by decide)
  exact congrArg (·.bind Sql.delete) hs

theorem delete_removeByQueue (hq : Clean q) :
    (Sql.read (removeByQueue q).text.toList).bind Sql.delete =
      some ⟨"binding_table".toList,[[(.column "name_queue".toList,.text q.toList)]]⟩ := by
  rw [read_parts (by simp [given,hq])]
  have hs := Sql.lexFrom_spliced "delete from binding_table where name_queue=".toList
    [';'] (by rfl) hq.1 (by decide)
  exact congrArg (·.bind Sql.delete) hs

theorem delete_removeExchange (hn : Clean name) :
    (Sql.read (removeExchange name).text.toList).bind Sql.delete =
      some ⟨"exchange_table".toList,[[(.column "name".toList,.text name.toList)]]⟩ := by
  rw [read_parts (by simp [given,hn])]
  have hs := Sql.lexFrom_spliced "delete from exchange_table where name=".toList
    [';'] (by rfl) hn.1 (by decide)
  exact congrArg (·.bind Sql.delete) hs

theorem delete_deleteQueue (hn : Clean name) :
    (Sql.read (deleteQueue name).text.toList).bind Sql.delete =
      some ⟨"queue_table".toList,[[(.column "name".toList,.text name.toList)]]⟩ := by
  rw [read_parts (by simp [given,hn])]
  have hs := Sql.lexFrom_spliced "delete from queue_table where name = ".toList
    [';'] (by rfl) hn.1 (by decide)
  exact congrArg (·.bind Sql.delete) hs

end Deletions

theorem actText_eq {text : String} {d : Sql.Delete}
    (h : (Sql.read text.toList).bind Sql.delete = some d) (db : Database) :
    db.actText text = db.actDelete d := by
  rw [Database.actText,h,Option.bind_some]

/-- A deletion of bindings whose condition names the same rows. -/
theorem delete_exact {text : String} {d : Sql.Delete} {named : BindingRow → Bool}
    (h : (Sql.read text.toList).bind Sql.delete = some d)
    (ht : d.table = "binding_table".toList)
    (hc : d.columns.all
      (["name_exchange","name_queue","binding_key"].map String.toList).contains = true)
    (hn : ∀ r : BindingRow, d.names r.column = named r) (db : Database) :
    BindingMapper.delete db named = db.exec fun db => db.actText text := by
  unfold BindingMapper.delete
  congr 1
  funext db
  rw [actText_eq h,Database.actDelete,if_pos ht,if_pos hc]
  simp only [hn]

/-- The same for the other two tables. -/
theorem remove_exact {text name : String} {d : Sql.Delete}
    (h : (Sql.read text.toList).bind Sql.delete = some d)
    (ht : d.table = "exchange_table".toList)
    (hc : d.columns.all (["name","args"].map String.toList).contains = true)
    (hn : ∀ r : ExchangeRow, d.names r.column = decide (r.name = name)) (db : Database) :
    ExchangeMapper.remove db name = db.exec fun db => db.actText text := by
  have hne : d.table ≠ "binding_table".toList := by rw [ht]; decide
  unfold ExchangeMapper.remove
  congr 1
  funext db
  rw [actText_eq h,Database.actDelete,if_neg hne,if_pos hc,if_pos ht]
  simp only [hn,decide_not]

theorem deleteQueue_exact {text name : String} {d : Sql.Delete}
    (h : (Sql.read text.toList).bind Sql.delete = some d)
    (ht : d.table = "queue_table".toList)
    (hc : d.columns.all (["name","args"].map String.toList).contains = true)
    (hn : ∀ r : QueueRow, d.names r.column = decide (r.name = name)) (db : Database) :
    QueueMapper.deleteQueue db name = db.exec fun db => db.actText text := by
  have hne : d.table ≠ "binding_table".toList := by rw [ht]; decide
  have hne' : d.table ≠ "exchange_table".toList := by rw [ht]; decide
  unfold QueueMapper.deleteQueue
  congr 1
  funext db
  rw [actText_eq h,Database.actDelete,if_neg hne,if_pos hc,if_neg hne',if_pos ht]
  simp only [hn,decide_not]

/-- With clean strings a text does exactly what its mapper is modelled to do. -/
theorem exact (s : MapperStatement) (h : ∀ x ∈ s.given, Clean x) : s.Exact := by
  cases s with
  | removeBinding e q =>
    have hd := delete_removeBinding (h e (by simp [given])) (h q (by simp [given]))
    refine fun db => delete_exact hd rfl (by rfl) (fun r => ?_) db
    have hcolE : r.column "name_exchange".toList = some r.nameExchange.toList := rfl
    have hcolQ : r.column "name_queue".toList = some r.nameQueue.toList := rfl
    refine (Sql.names_conjunction _ [("name_exchange".toList,e.toList),
      ("name_queue".toList,q.toList)] r.column).trans ?_
    simp only [List.all_cons,hcolE,hcolQ]
    simp [String.toList_inj]
  | removeByExchange e =>
    have hd := delete_removeByExchange (h e (by simp [given]))
    refine fun db => delete_exact hd rfl (by rfl) (fun r => ?_) db
    have hcol : r.column "name_exchange".toList = some r.nameExchange.toList := rfl
    refine (Sql.names_conjunction _ [("name_exchange".toList,e.toList)] r.column).trans ?_
    simp only [List.all_cons,hcol]
    simp [String.toList_inj]
  | removeByQueue q =>
    have hd := delete_removeByQueue (h q (by simp [given]))
    refine fun db => delete_exact hd rfl (by rfl) (fun r => ?_) db
    have hcol : r.column "name_queue".toList = some r.nameQueue.toList := rfl
    refine (Sql.names_conjunction _ [("name_queue".toList,q.toList)] r.column).trans ?_
    simp only [List.all_cons,hcol]
    simp [String.toList_inj]
  | removeExchange name =>
    have hd := delete_removeExchange (h name (by simp [given]))
    refine fun db => remove_exact hd rfl (by rfl) (fun r => ?_) db
    have hcol : r.column "name".toList = some r.name.toList := rfl
    refine (Sql.names_conjunction _ [("name".toList,name.toList)] r.column).trans ?_
    simp only [List.all_cons,hcol]
    simp [String.toList_inj]
  | deleteQueue name =>
    have hd := delete_deleteQueue (h name (by simp [given]))
    refine fun db => deleteQueue_exact hd rfl (by rfl) (fun r => ?_) db
    have hcol : r.column "name".toList = some r.name.toList := rfl
    refine (Sql.names_conjunction _ [("name".toList,name.toList)] r.column).trans ?_
    simp only [List.all_cons,hcol]
    simp [String.toList_inj]
  | _ => trivial

/-- The text is one statement whose literals are the given strings, and a deletion removes the
rows it names and no others. -/
structure Intact (s : MapperStatement) : Prop where
  literals : Sql.OneStatement (Sql.read s.text.toList) (s.given.map String.toList)
  exact : s.Exact

end MapperStatement

/-- A text is read as it is meant exactly if every string in it is clean. -/
theorem literals_intact_iff (s : MapperStatement) : s.Intact ↔ ∀ x ∈ s.given, Clean x :=
  ⟨fun h => s.oneStatement_iff.mp h.literals,fun h => ⟨s.oneStatement_iff.mpr h,s.exact h⟩⟩

/-- The name of an exchange that was never stored, and all the bindings are gone. -/
theorem name_escapes :
    ¬ (MapperStatement.removeByExchange "x' or 'a'='a").Intact ∧
      ∀ rows, Database.actText {bindingTable := some rows}
        (BindingMapper.removeByExchangeText "x' or 'a'='a") =
          some {bindingTable := some []} := by
  constructor
  · intro h
    have hclean := (MapperStatement.oneStatement_iff _).mp h.literals _ (List.mem_singleton_self _)
    exact hclean.1 (by decide)
  · intro rows
    have hread : (Sql.read (BindingMapper.removeByExchangeText "x' or 'a'='a").toList).bind
        Sql.delete = some ⟨"binding_table".toList,
          [[(.column "name_exchange".toList,.text ['x'])],[(.text ['a'],.text ['a'])]]⟩ := by
      decide +kernel
    rw [MapperStatement.actText_eq hread]
    generalize hd : (⟨"binding_table".toList,
      [[(.column "name_exchange".toList,.text ['x'])],[(.text ['a'],.text ['a'])]]⟩ :
        Sql.Delete) = d
    have hall : ∀ r : BindingRow, d.names r.column = true := by
      intro r
      rw [← hd]
      simp [Sql.Delete.names,Sql.Operand.value]
    have ht : d.table = "binding_table".toList := by rw [← hd]
    have hc : d.columns.all
        (["name_exchange","name_queue","binding_key"].map String.toList).contains = true := by
      rw [← hd]
      decide +kernel
    rw [Database.actDelete,if_pos ht,if_pos hc]
    simp only [hall,Option.map_some,Bool.not_true,List.filter_false]

end MessageQueue
