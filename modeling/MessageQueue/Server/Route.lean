import MessageQueue.Common.Helper
import MessageQueue.Common.SqliteHelper

/-! `RouteManager`: which routing keys are legal, and which binding keys a routing key reaches. -/
namespace MessageQueue

namespace RouteManager

/-- A dot may neither come first nor follow a dot. -/
def legalAfter (prev : Option Char) (c : Char) : Bool :=
  decide ('a' ≤ c ∧ c ≤ 'z') || decide ('A' ≤ c ∧ c ≤ 'Z') || decide ('0' ≤ c ∧ c ≤ '9') ||
  c == '_' || (prev.isSome && c == '.' && prev != some c)

def validLoop : Option Char → List Char → Bool
  | _,[] => true
  | prev,c::cs => legalAfter prev c && validLoop (some c) cs

def isValidRoutingKey (routingKey : String) : Bool := validLoop none routingKey.toList

def legalInBinding (c : Char) : Bool :=
  decide ('a' ≤ c ∧ c ≤ 'z') || decide ('A' ≤ c ∧ c ≤ 'Z') || decide ('0' ≤ c ∧ c ≤ '9') ||
  (c == '_' || c == '.') || (c == '*' || c == '#')

/-- A wildcard is a word of its own. -/
def wildcardAlone (word : String) : Bool :=
  !(decide (1 < word.length) && ((StrHelper.find word.toList ['*'] 0).isSome ||
    (StrHelper.find word.toList ['#'] 0).isSome))

/-- No two wildcards in a row, unless both are `*`. -/
def legalNeighbours : List String → Bool
  | prev::word::rest =>
    !(decide (word = "#") && decide (prev = "*")) &&
    !(decide (word = "#") && decide (prev = "#")) &&
    !(decide (word = "*") && decide (prev = "#")) && legalNeighbours (word::rest)
  | _ => true

def isValidBindingKey (bindingKey : String) : Bool :=
  bindingKey.toList.all legalInBinding &&
    let subWords := StrHelper.split bindingKey "."
    subWords.all wildcardAlone && legalNeighbours subWords

/-- One row of the table after its first column, from left to right: `left` is the entry just
computed, `above` the row before from the entry above `left` on. -/
def rowLoop (bkey : String) (left : Bool) : List Bool → List String → List Bool
  | diag::up::above,rkey::rkeys =>
    let cell :=
      if bkey = rkey ∨ bkey = "*" then diag
      else if bkey = "#" then diag || left || up
      else false
    cell :: rowLoop bkey cell (up::above) rkeys
  | _,_ => []

/-- The rows of the table, one for each binding word. The first column stays true as long as the
words so far are all `#`. -/
def rows (rkeys : List String) : List String → Bool → List Bool → List Bool
  | [],_,row => row
  | bkey::bkeys,leading,row =>
    let leading := leading && decide (bkey = "#")
    rows rkeys bkeys leading (leading :: rowLoop bkey leading row rkeys)

/-- The last entry of the table. -/
def topicMatch (bkeys rkeys : List String) : Bool :=
  (rows rkeys bkeys true (true :: rkeys.map fun _ => false)).getLast?.getD false

/-- `none` stands for control running off the end of the function. -/
def route (type : ExchangeType) (routingKey bindingKey : String) : Option Bool :=
  if type = .direct then some (decide (routingKey = bindingKey))
  else if type = .fanout then some true
  else if type = .topic then
    some (topicMatch (StrHelper.split bindingKey ".") (StrHelper.split routingKey "."))
  else none

example : route .topic "news.music.pop" "news.#.pop" = some true := by decide
example : route .topic "news.music.pop" "news.*" = some false := by decide

end RouteManager
end MessageQueue
