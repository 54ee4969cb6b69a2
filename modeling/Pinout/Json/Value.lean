import Pinout.Binary64.Basic
import Pinout.Text.Basic

/-!
# Pinout.Json.Value

JSON values. The members of an object keep the order in which their keys were first put, and a key
stands once: `insert` replaces the value of a key in its place.
-/

namespace Pinout

inductive Json where
  | null
  | bool (b : Bool)
  | int (i : Int)
  | real (x : Binary64)
  | string (t : Text)
  | array (items : List Json)
  | object (members : List (Text × Json))
  deriving Repr

namespace Json

abbrev Members := List (Text × Json)

/-- The members with `key` set to `value`. -/
def insert (key : Text) (value : Json) : Members → Members
  | [] => [(key, value)]
  | (k, v) :: rest => if k = key then (key, value) :: rest else (k, v) :: insert key value rest

def ofEntries (entries : Members) : Members :=
  entries.foldl (fun members (key, value) => insert key value members) []

def find? (key : Text) : Members → Option Json
  | [] => none
  | (k, v) :: rest => if k = key then some v else find? key rest

/-- The member `key` of an object. -/
def field? (key : Text) : Json → Option Json
  | object members => find? key members
  | _ => none

def isObject : Json → Bool
  | object _ => true
  | _ => false

end Json
end Pinout
