import ServiceLang.Decimal.Read
import ServiceLang.Text.Blank
import ServiceLang.Text.Split

/-!
Schedules in string-valued settings.

A schedule is a descriptor such as `@daily`, or five fields between white space.
A field is a list of items; an item is `*`, a value or a range, perhaps with a step
after a slash.  Months and days of the week have names beside their numbers.
-/

namespace ServiceLang

/-- The fields of a schedule, in their order. -/
inductive CronField where
  | minute
  | hour
  | dayOfMonth
  | month
  | dayOfWeek
deriving DecidableEq, Repr

namespace CronField

def all : List CronField := [minute, hour, dayOfMonth, month, dayOfWeek]

def text : CronField → String
  | minute => "minute"
  | hour => "hour"
  | dayOfMonth => "day-of-month"
  | month => "month"
  | dayOfWeek => "day-of-week"

def least : CronField → Nat
  | minute | hour | dayOfWeek => 0
  | dayOfMonth | month => 1

/-- The greatest value of a field; Sunday is both zero and seven. -/
def greatest : CronField → Nat
  | minute => 59
  | hour => 23
  | dayOfMonth => 31
  | month => 12
  | dayOfWeek => 7

/-- The names of a field's values, from its least value on. -/
def names : CronField → List String
  | minute | hour | dayOfMonth => []
  | month =>
    ["JAN", "FEB", "MAR", "APR", "MAY", "JUN", "JUL", "AUG", "SEP", "OCT", "NOV", "DEC"]
  | dayOfWeek => ["SUN", "MON", "TUE", "WED", "THU", "FRI", "SAT"]

end CronField

/-- Why a text is not a schedule. -/
inductive CronFault where
  | fieldCount (found : Nat)
  | unknownDescriptor (text : String)
  | invalidItem (field : CronField) (item : String)
  | outOfRange (field : CronField) (value : Nat)
deriving DecidableEq, Repr

namespace CronFault

def message : CronFault → String
  | fieldCount found => "expected 5 fields, found " ++ toString found
  | unknownDescriptor text => "unknown descriptor '" ++ text ++ "'"
  | invalidItem field item => "invalid " ++ field.text ++ " field '" ++ item ++ "'"
  | outOfRange field value =>
    field.text ++ " value " ++ toString value ++ " out of range " ++ toString field.least ++ "-" ++
      toString field.greatest

end CronFault

namespace Cron

/-- The schedules that have a name. -/
def descriptors : List String :=
  ["@yearly", "@annually", "@monthly", "@weekly", "@daily", "@midnight", "@hourly"]

/-- The number below two to the 32 that ASCII digits write, perhaps after a plus sign. -/
def number? (cs : List Char) : Option Nat :=
  let digits := match cs with
    | '+' :: ds => ds
    | ds => ds
  if digits.isEmpty || !digits.all Char.isDigit then none
  else
    let n := Decimal.natOfDigits digits
    if n < UInt32.size then some n else none

/-- The value of a number or of a name; ASCII case does not matter in names. -/
def value? (field : CronField) (cs : List Char) : Option Nat :=
  match number? cs with
  | some n => some n
  | none =>
    (field.names.findIdx? (· = String.ofList (cs.map Char.toUpper))).map (field.least + ·)

def checkRange (field : CronField) (value : Nat) : Except CronFault Unit :=
  if value < field.least || field.greatest < value then .error (.outOfRange field value)
  else .ok ()

/-- Steps are positive numbers. -/
def isStep (cs : List Char) : Bool := (number? cs).any (0 < ·)

/-- Checks an item without its step; `invalid` is the fault of an item that is not
well formed. -/
def checkBase (field : CronField) (invalid : CronFault) (base : List Char) :
    Except CronFault Unit :=
  if base = ['*'] then .ok ()
  else
    match Text.splitFirst? '-' base with
    | none =>
      match value? field base with
      | none => .error invalid
      | some v => checkRange field v
    | some (first, last) =>
      match value? field first, value? field last with
      | some lo, some hi => do
        checkRange field lo
        checkRange field hi
        if hi < lo then .error invalid else .ok ()
      | _, _ => .error invalid

def checkItem (field : CronField) (item : List Char) : Except CronFault Unit :=
  let invalid := CronFault.invalidItem field (String.ofList item)
  match Text.splitFirst? '/' item with
  | none => checkBase field invalid item
  | some (base, step) => if isStep step then checkBase field invalid base else .error invalid

def checkField (field : CronField) (text : List Char) : Except CronFault Unit :=
  (Text.splitOn ',' text).forM (checkItem field)

def check (text : String) : Except CronFault Unit :=
  let trimmed := Text.trim text.toList
  if trimmed.head? = some '@' then
    let name := String.ofList trimmed
    if name ∈ descriptors then .ok () else .error (.unknownDescriptor name)
  else
    let fields := Text.words trimmed
    if fields.length = CronField.all.length then
      (CronField.all.zip fields).forM fun (field, text) => checkField field text
    else .error (.fieldCount fields.length)

end Cron

end ServiceLang
