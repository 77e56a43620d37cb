import MessageQueue.Common.Split
import MessageQueue.Server.Exchange
import MessageQueue.Server.Queue

/-! The arguments that are kept as text. The text of a map is read back as the map exactly if no
separator is part of a key or a value. -/
namespace MessageQueue
open Base StrHelper

namespace Args
variable {args : Args} {k v : String}

/-- No key has a `=` or a `&` in it, and no value a `&`. -/
def Plain (args : Args) : Prop :=
  ∀ k v, args.lookup k = some v → '=' ∉ k.toList ∧ '&' ∉ k.toList ∧ '&' ∉ v.toList

theorem plain_empty : Plain ∅ := fun k v h => by simp at h

theorem Plain.insert (h : args.Plain) (hk : '=' ∉ k.toList ∧ '&' ∉ k.toList ∧ '&' ∉ v.toList) :
    Plain (AList.insert k v args) :=
  Table.forall_insert hk h

/-- A piece of the text cannot have a separator in the wrong place. -/
theorem plain_piece {str : String} (h : '&' ∉ str.toList) :
    let kv := substrAt str.toList (find str.toList ['='] 0)
    '=' ∉ kv.1.toList ∧ '&' ∉ kv.1.toList ∧ '&' ∉ kv.2.toList := by
  cases hf : find str.toList ['='] 0 with
  | none =>
    have hno := find_none hf
    simp only [substrAt,String.toList_ofList]
    exact ⟨hno,h,h⟩
  | some pos =>
    have hbefore := (find_some hf).2.1
    simp only [substrAt,String.toList_ofList]
    exact ⟨hbefore,fun hm => h (List.mem_of_mem_take hm),fun hm => h (List.mem_of_mem_drop hm)⟩

theorem plain_foldl {ps : List String} (hps : ∀ p ∈ ps, '&' ∉ p.toList) (h : args.Plain) :
    Plain (ps.foldl (fun args str =>
      let kv := substrAt str.toList (find str.toList ['='] 0)
      AList.insert kv.1 kv.2 args) args) := by
  induction ps generalizing args with
  | nil => exact h
  | cons p ps ih =>
    obtain ⟨hp,hps⟩ := List.forall_mem_cons.mp hps
    exact ih hps (h.insert (plain_piece hp))

theorem plain_setArgsLoop {ps : List String} (hps : ∀ p ∈ ps, '&' ∉ p.toList) (h : args.Plain) :
    Plain (Queue.setArgsLoop args ps).2 := by
  induction ps generalizing args with
  | nil => exact h
  | cons p ps ih =>
    obtain ⟨hp,hps⟩ := List.forall_mem_cons.mp hps
    have hpiece := plain_piece hp
    unfold Queue.setArgsLoop
    cases hf : find p.toList ['='] 0 with
    | none => exact h
    | some pos =>
      rw [hf] at hpiece
      exact ih hps (h.insert hpiece)

/-- The text of one entry, without the `&` after it. -/
def entryText (e : Sigma fun _ : String => String) : String := e.1 ++ "=" ++ e.2

theorem getArgs_eq (args : Args) : args.getArgs =
    .ofList ((args.entries.map entryText).flatMap fun u => u.toList ++ ['&']) := by
  have hamp : "&".toList = ['&'] := by decide
  have hf : ∀ (es : List (Sigma fun _ : String => String)) (s : String),
      (es.foldl (fun s e => s ++ (e.1 ++ "=" ++ e.2 ++ "&")) s).toList =
        s.toList ++ (es.map entryText).flatMap fun u => u.toList ++ ['&'] := by
    intro es
    induction es with
    | nil => simp
    | cons e es ih =>
      intro s
      rw [List.foldl_cons,ih,List.map_cons,List.flatMap_cons,entryText]
      simp only [String.toList_append,hamp,List.append_assoc]
  have h := hf args.entries ""
  rw [← String.toList_inj,String.toList_ofList,getArgs,h]
  simp

/-- The pieces of a plain map's text are its entries. -/
theorem Plain.pieces_getArgs (h : args.Plain) :
    split args.getArgs "&" = args.entries.map entryText := by
  rw [split_pieces (c := '&') (by decide),getArgs_eq]
  refine pieces_flatMap fun u hu => ?_
  obtain ⟨e,he,rfl⟩ := List.mem_map.mp hu
  have heq : "=".toList = ['='] := by decide
  obtain ⟨-,hk,hv⟩ := h e.1 e.2 (AList.mem_lookup_iff.mpr he)
  constructor
  · intro hnil
    have hlen := congrArg String.toList hnil
    simp [entryText,heq] at hlen
  · simp [entryText,heq,hk,hv]

/-- An entry is cut at its first `=`. -/
theorem find_entryText {e : Sigma fun _ : String => String} (h : '=' ∉ e.1.toList) :
    find (entryText e).toList ['='] 0 = some e.1.toList.length ∧
      substrAt (entryText e).toList (some e.1.toList.length) = (e.1,e.2) := by
  have heq : "=".toList = ['='] := by decide
  have htext : (entryText e).toList = e.1.toList ++ '='::e.2.toList := by
    simp [entryText,heq]
  rw [htext]
  refine ⟨find_first h,?_⟩
  simp [substrAt,String.ofList_toList]

/-- What a map holds that was filled with the entries of another. -/
theorem lookup_foldl_insert {es : List (Sigma fun _ : String => String)} (h : es.NodupKeys) :
    (es.foldl (fun m e => AList.insert e.1 e.2 m) args).lookup k =
      (es.dlookup k).or (args.lookup k) := by
  induction es generalizing args with
  | nil => simp
  | cons e es ih =>
    obtain ⟨j,w⟩ := e
    obtain ⟨hj,hes⟩ := List.nodupKeys_cons.mp h
    rw [List.foldl_cons,ih hes]
    by_cases hk : k = j
    · subst hk
      rw [List.dlookup_eq_none.mpr hj,List.dlookup_cons_eq,AList.lookup_insert]
      rfl
    · rw [List.dlookup_cons_ne _ _ hk,AList.lookup_insert_ne hk]

theorem foldl_entries (args : Args) :
    (args.entries.foldl (fun m e => AList.insert e.1 e.2 m) (∅ : Args)).lookup k = args.lookup k := by
  rw [lookup_foldl_insert args.nodupKeys]
  change (args.lookup k).or none = _
  rw [Option.or_none]

/-- Reading the text of a plain map back enters its entries one after the other. -/
theorem Plain.exchange_setArgs (h : args.Plain) : Exchange.setArgs ∅ args.getArgs =
    args.entries.foldl (fun m e => AList.insert e.1 e.2 m) ∅ := by
  rw [Exchange.setArgs,h.pieces_getArgs,List.foldl_map]
  refine List.foldl_ext _ _ _ fun m e he => ?_
  obtain ⟨hfind,hcut⟩ := find_entryText (h e.1 e.2 (AList.mem_lookup_iff.mpr he)).1
  rw [hfind,hcut]

theorem setArgsLoop_entries {es : List (Sigma fun _ : String => String)}
    (h : ∀ e ∈ es, '=' ∉ e.1.toList) : Queue.setArgsLoop args (es.map entryText) =
      (true,es.foldl (fun m e => AList.insert e.1 e.2 m) args) := by
  induction es generalizing args with
  | nil => rfl
  | cons e es ih =>
    obtain ⟨he,hes⟩ := List.forall_mem_cons.mp h
    obtain ⟨hfind,hcut⟩ := find_entryText he
    rw [List.map_cons,Queue.setArgsLoop,hfind]
    simp only [hcut]
    exact ih hes

theorem Plain.queue_setArgs (h : args.Plain) : Queue.setArgs ∅ args.getArgs =
    (true,args.entries.foldl (fun m e => AList.insert e.1 e.2 m) ∅) := by
  rw [Queue.setArgs,h.pieces_getArgs]
  exact setArgsLoop_entries fun e he => (h e.1 e.2 (AList.mem_lookup_iff.mpr he)).1

theorem Plain.congr {args' : Args} (h : ∀ k, args.lookup k = args'.lookup k) (hp : args.Plain) :
    args'.Plain := fun k v hk => hp k v ((h k).trans hk)

/-- Whatever is read from a text is plain. -/
theorem plain_setArgs (text : String) :
    Plain (Exchange.setArgs ∅ text) ∧ Plain (Queue.setArgs ∅ text).2 := by
  have hps : ∀ p ∈ split text "&", '&' ∉ p.toList := by
    rw [split_pieces (c := '&') (by decide)]
    exact fun p hp => (isPiece_of_mem hp).2
  exact ⟨plain_foldl hps plain_empty,plain_setArgsLoop hps plain_empty⟩

/-- In whatever order the entries of a map are written, the text is read back as the map exactly
if the map is plain. -/
theorem args_round_trip_iff {args shuffled : Args} (h : shuffled.entries.Perm args.entries) :
    ((∀ k, (Exchange.setArgs ∅ shuffled.getArgs).lookup k = args.lookup k) ↔ args.Plain) ∧
    ((∀ k, (Queue.setArgs ∅ shuffled.getArgs).2.lookup k = args.lookup k) ↔ args.Plain) ∧
    (args.Plain → (Queue.setArgs ∅ shuffled.getArgs).1 = true) := by
  have hsame : ∀ k, args.lookup k = shuffled.lookup k := fun k => (AList.perm_lookup h).symm
  obtain ⟨hexchange,hqueue⟩ := plain_setArgs shuffled.getArgs
  refine ⟨⟨fun hall => hexchange.congr hall,fun hp k => ?_⟩,
    ⟨fun hall => hqueue.congr hall,fun hp k => ?_⟩,fun hp => ?_⟩
  · rw [(hp.congr hsame).exchange_setArgs,foldl_entries,hsame]
  · rw [(hp.congr hsame).queue_setArgs,foldl_entries,hsame]
  · rw [(hp.congr hsame).queue_setArgs]

/-- Two entries, written in the other order. -/
theorem args_round_trip_two :
    let args : Args := AList.insert "ttl" "60" (AList.insert "max" "" ∅)
    let shuffled : Args := AList.insert "max" "" (AList.insert "ttl" "60" ∅)
    shuffled.entries.Perm args.entries ∧
      ((∀ k, (Exchange.setArgs ∅ shuffled.getArgs).lookup k = args.lookup k) ↔ args.Plain) := by
  have h : (AList.insert "max" "" (AList.insert "ttl" "60" ∅) : Args).entries.Perm
      (AList.insert "ttl" "60" (AList.insert "max" "" ∅) : Args).entries := by
    decide
  exact ⟨h,(args_round_trip_iff h).1⟩

end Args
end MessageQueue
