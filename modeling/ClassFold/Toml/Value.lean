import ClassFold.Decimal.Binary64
import ClassFold.Text.Basic

/-!
# TOML values
-/

set_option autoImplicit false

namespace ClassFold.Toml

structure Date where
  year : Nat
  month : Nat
  day : Nat
deriving DecidableEq, Repr

structure Time where
  hour : Nat
  minute : Nat
  second : Nat
  /-- The digits behind the point. -/
  fraction : Text
deriving DecidableEq, Repr

inductive Offset where
  | utc
  | minutes (east : Int)
deriving DecidableEq, Repr

inductive Moment where
  | date (date : Date)
  | time (time : Time)
  | dateTime (date : Date) (time : Time) (offset? : Option Offset)
deriving DecidableEq, Repr

/-- What brought a table into being, which settles what may still be added to it. -/
inductive Origin where
  /-- A header of its own, an element of an array of tables, or the document. -/
  | header
  /-- The way to another header. -/
  | implied
  /-- The way of a dotted key. -/
  | dotted
  /-- Braces. Nothing can be added. -/
  | braces
deriving DecidableEq, Repr

inductive Value where
  | string (text : Text)
  | integer (number : Int)
  | float (number : Binary64)
  | boolean (truth : Bool)
  | moment (moment : Moment)
  | array (items : List Value)
  /-- An array of tables, each element under a header of its own. -/
  | tables (items : List (List (Text × Value)))
  /-- The entries stand in the order in which their keys came up. -/
  | table (origin : Origin) (entries : List (Text × Value))
deriving Inhabited

abbrev Table := List (Text × Value)

end ClassFold.Toml
