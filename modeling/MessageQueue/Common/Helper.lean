import MessageQueue.Base.Table

/-! `StrHelper` of `Helper.hpp`, and the argument maps that are kept as text through it. Strings
are proto3 text, so they are cut character by character. -/
namespace MessageQueue
open Base

namespace StrHelper

/-- `std::string::find`: the leftmost place of `sep` from `idx` on. -/
def find (str sep : List Char) (idx : ℕ) : Option ℕ :=
  ((List.range (str.length+1)).drop idx).find? fun pos => sep.isPrefixOf (str.drop pos)

/-- The loop of `split`. With a separator that is not empty every round moves `idx`, so as many
rounds as the string has characters are enough. -/
def splitLoop (str sep : List Char) : ℕ → ℕ → List String → List String
  | 0,_,result => result
  | fuel+1,idx,result =>
    if idx < str.length then
      match find str sep idx with
      | none => result ++ [.ofList (str.drop idx)]
      | some pos =>
        if pos = idx then splitLoop str sep fuel (pos+sep.length) result
        else splitLoop str sep fuel (pos+sep.length)
          (result ++ [.ofList ((str.drop idx).take (pos-idx))])
    else result

/-- The pieces between the separators, without the empty ones. -/
def split (str sep : String) : List String :=
  splitLoop str.toList sep.toList (str.toList.length+1) 0 []

example : split "news..music.#" "." = ["news","music","#"] := by decide

end StrHelper

/-- A `map<string,string>`; the order of the entries is the one its iterators take. -/
abbrev Args := Table String String

/-- `key=val&` for each entry. -/
def Args.getArgs (args : Args) : String :=
  args.entries.foldl (fun s e => s ++ (e.1 ++ "=" ++ e.2 ++ "&")) ""

/-- What `substr` makes of the two sides of a place: with no place both are the whole string. -/
def substrAt (str : List Char) : Option ℕ → String × String
  | some pos => (.ofList (str.take pos),.ofList (str.drop (pos+1)))
  | none => (.ofList str,.ofList str)

/-- The order in which a loop over an unordered map takes its entries. -/
structure Iteration where
  order : {α : Type} → List α → List α
  perm : ∀ {α : Type} (l : List α), (order l).Perm l

@[simp] theorem Iteration.mem_order {it : Iteration} {α : Type} {l : List α} {a : α} :
    a ∈ it.order l ↔ a ∈ l := (it.perm l).mem_iff

def Iteration.listed : Iteration := ⟨fun l => l,fun _ => .refl _⟩

end MessageQueue
