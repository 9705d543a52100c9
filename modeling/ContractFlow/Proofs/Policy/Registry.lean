import ContractFlow.Plugin.Host
import ContractFlow.Proofs.Program.Legible

/-! This module shows that the registration of policies stops at the first class that has a name and is rejected. -/

namespace ContractFlow

theorem Value.beq_text_congr {v w : Value} {s : String} (h : (v == w) = true) : (v == .text s) = (w == .text s) := by
  rw [Bool.eq_iff_iff]
  constructor
  · intro hv
    obtain rfl := eq_text_of_beq hv
    cases w with
    | text t => simpa [BEq.beq, same, eq_comm] using h
    | _ => simp [BEq.beq, same] at h
  · intro hw
    exact eq_text_of_beq hw ▸ h

namespace PolicyClass

def isAccepted (c : PolicyClass) : Bool :=
  !c.typeName.contains '\x00' && c.isRegistrable && c.name.isKey

/-- Whether registration goes on behind a class, which it passes over if it has no name. -/
def isPassed (c : PolicyClass) : Bool :=
  !c.name.holds || c.isAccepted

def lastAccepted? (cs : List PolicyClass) (name : String) : Option PolicyClass :=
  cs.reverse.find? fun c => c.isAccepted && c.name == .text name

theorem lastAccepted?_cons (c : PolicyClass) (cs : List PolicyClass) (name : String) : lastAccepted? (c :: cs) name
    = (lastAccepted? cs name).or (if c.isAccepted && c.name == .text name then some c else none) := by
  unfold lastAccepted?
  rw [List.reverse_cons, List.find?_append, List.find?_singleton]

end PolicyClass

namespace Registry

theorem find?_put (c : PolicyClass) (cs : List PolicyClass) (name : String) :
    (put c cs).find? (·.name == .text name)
      = if c.name == .text name then some c else cs.find? (·.name == .text name) := by
  induction cs with
  | nil =>
    rw [put, List.find?_singleton]
    rfl
  | cons d cs ih =>
    rw [put]
    split
    · next hsame =>
      have hcongr := Value.beq_text_congr (s := name) hsame
      cases hc : c.name == .text name <;> simp [hc, hcongr]
    · next hother =>
      rw [List.find?_cons, List.find?_cons, ih]
      cases hd : d.name == .text name with
      | false => rfl
      | true =>
        have hc : (c.name == .text name) = false := by
          by_contra hc
          rw [Bool.not_eq_false] at hc
          rw [Value.eq_text_of_beq hc] at hother
          exact hother hd
        simp [hc]

theorem register_eq (r : Registry) (c : PolicyClass) :
    if c.isAccepted then r.register c = .ok ⟨put c r.classes⟩ else ∃ e, r.register c = .error e := by
  unfold register PolicyClass.isAccepted
  cases c.typeName.contains '\x00' <;> cases c.isRegistrable <;> cases c.name.isKey <;> simp

end Registry

namespace PluginHost

open PolicyClass

theorem registerAll_cons (r : Registry) (count : Nat) (c : PolicyClass) (cs : List PolicyClass) :
    (c.isAccepted = true ∧ c.isPassed = true ∧
      registerAll r count (c :: cs) = registerAll ⟨Registry.put c r.classes⟩ (count + 1) cs) ∨
    (c.isAccepted = false ∧ c.isPassed = true ∧ registerAll r count (c :: cs) = registerAll r count cs) ∨
    (c.isPassed = false ∧ ∃ e, registerAll r count (c :: cs) = (.error e, r)) := by
  have hregister := r.register_eq c
  cases hholds : c.name.holds with
  | false =>
    have hrejected : c.isAccepted = false := by simp [isAccepted, isRegistrable, hholds]
    exact .inr (.inl ⟨hrejected, by simp [isPassed, hholds], by simp [registerAll, hholds]⟩)
  | true =>
    cases haccepted : c.isAccepted with
    | true =>
      rw [haccepted, if_pos rfl] at hregister
      exact .inl ⟨rfl, by simp [isPassed, haccepted], by simp [registerAll, hholds, hregister]⟩
    | false =>
      rw [haccepted] at hregister
      obtain ⟨e, he⟩ := hregister
      exact .inr (.inr ⟨by simp [isPassed, hholds, haccepted], e, by simp [registerAll, hholds, he]⟩)

theorem registerAll_spec (r : Registry) (count : Nat) (cs : List PolicyClass) (name : String) :
    ((registerAll r count cs).1.isOk = true ↔ ∀ c ∈ cs, c.isPassed = true) ∧
      (registerAll r count cs).2.classes.find? (·.name == .text name)
        = (lastAccepted? (cs.takeWhile isPassed) name).or (r.classes.find? (·.name == .text name)) := by
  induction cs generalizing r count with
  | nil => exact ⟨by simp [registerAll, Except.toBool], rfl⟩
  | cons c cs ih =>
    rcases registerAll_cons r count c cs with ⟨haccepted, hpassed, heq⟩ | ⟨hrejected, hpassed, heq⟩ | ⟨hpassed, e, heq⟩
    · rw [heq, (ih ..).1, (ih ..).2, List.takeWhile_cons_of_pos hpassed, lastAccepted?_cons, Registry.find?_put,
        haccepted, Option.or_assoc]
      refine ⟨by simp [hpassed], ?_⟩
      cases c.name == .text name <;> rfl
    · rw [heq, (ih ..).1, (ih ..).2, List.takeWhile_cons_of_pos hpassed, lastAccepted?_cons, hrejected]
      simp [hpassed]
    · rw [heq]
      simp [hpassed, Except.toBool, lastAccepted?]

/--
Registration takes the classes of plugins one by one, up to the first one that has a name and is rejected, where it
fails: a name stands for the last accepted class of that name in front of that one, and else for what it stood for
before.
-/
theorem registration_stops_at_rejected_class (h : PluginHost) (name : String) :
    (h.register.1.isOk = true ↔ ∀ c ∈ h.classes, c.isPassed = true) ∧
      h.register.2.registry.find? (.text name) = .ok ((lastAccepted? (h.classes.takeWhile isPassed) name).or
        (h.registry.classes.find? (·.name == .text name))) :=
  (registerAll_spec h.registry 0 h.classes name).imp_right (congrArg Except.ok)

end PluginHost

/-! A plugin with a named class that is abstract and, behind it, one that is concrete. -/

namespace Blocked

def host : PluginHost where
  files := default
  root := []
  plugins := [{
    manifest := default
    place := []
    checksum := ""
    classes := [{ typeName := "A", name := .text "a", isConcrete := false }, { typeName := "B", name := .text "b" }] }]

/-- The concrete class could be registered, but registration fails before it comes to it. -/
theorem class_behind_abstract_one_is_missing : (host.classes.map fun c => (c.name, c.isRegistrable))
    = [(.text "a", false), (.text "b", true)] ∧ host.register.1.isOk = false ∧
      host.register.2.registry.find? (.text "b") = .ok none := by
  have hregister := host.registration_stops_at_rejected_class "b"
  have hfirst : PolicyClass.isPassed { typeName := "A", name := .text "a", isConcrete := false } = false := by
    simp [PolicyClass.isPassed, PolicyClass.isAccepted, PolicyClass.isRegistrable, Value.holds]
  have hdone : host.classes.takeWhile PolicyClass.isPassed = [] := List.takeWhile_cons_of_neg (by simp [hfirst])
  refine ⟨rfl, ?_, ?_⟩
  · rw [Bool.eq_false_iff, ne_eq, hregister.1]
    exact fun hall => absurd (hall _ List.mem_cons_self) (by simp [hfirst])
  · rw [hregister.2, hdone]
    rfl

end Blocked

end ContractFlow
