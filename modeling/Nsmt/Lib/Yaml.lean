import Nsmt.Lib.Text

/-!
# YAML values

What a reader makes of a YAML text. The reader itself is a parameter.
-/

namespace Nsmt.Lib

/-- `number` has the text of the number. -/
inductive Yaml
  | null
  | bool (b : Bool)
  | number (text : Text)
  | string (text : Text)
  | sequence (items : List Yaml)
  | mapping (fields : List (Yaml × Yaml))

/-- A reader of YAML texts; `none` is an error. -/
abbrev YamlReader := Text → Option Yaml

namespace Yaml

def asStr : Yaml → Option Text
  | .string text => some text
  | _ => none

/-- `Value::get` with a string. -/
def get (key : Text) : Yaml → Option Yaml
  | .mapping fields => (fields.find? fun field => field.1.asStr = some key).map (·.2)
  | _ => none

@[simp] theorem get_nil (key : Text) : (mapping []).get key = none := rfl

@[simp] theorem get_cons (key : Text) (k v : Yaml) (fields : List (Yaml × Yaml)) :
    (mapping ((k, v) :: fields)).get key = if k.asStr = some key then some v else (mapping fields).get key := by
  unfold get
  by_cases h : k.asStr = some key <;> simp [h]

end Yaml

end Nsmt.Lib
