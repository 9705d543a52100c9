import ContractFlow.Data.Display
import ContractFlow.Fault

/-! This module contains what is done with words, which ought to be texts but are kept as they were written. -/

namespace ContractFlow.Value

def asText : Value → Except Fault String
  | .text s => .ok s
  | _ => .error .notText

def asPart : Value → Except Fault String
  | .text s => .ok s
  | _ => .error .notJoinable

def join (separator : String) (words : List Value) : Except Fault String := do
  return separator.intercalate (← words.mapM asPart)

def asKey (v : Value) : Except Fault Value :=
  if v.isKey then .ok v else .error .notAKey

def isAmong (v : Value) (words : List String) : Except Fault Bool := do
  return (← v.asKey).isOneOf words

@[simp]
theorem asText_text (s : String) : asText (.text s) = .ok s := rfl

@[simp]
theorem asPart_text (s : String) : asPart (.text s) = .ok s := rfl

theorem asKey_of_isKey {v : Value} (h : v.isKey) : v.asKey = .ok v := by
  simp [asKey, h]

end ContractFlow.Value
