import ContractFlow.Program.Types
import ContractFlow.Proofs.Query

/-!
This module contains the programs whose words are texts, in which every name can be looked up and every type be told.
-/

namespace ContractFlow

open Outcome (Succeeds)

def Value.isText : Value → Bool
  | .text _ => true
  | _ => false

namespace Value

variable {v : Value}

theorem exists_eq_text (h : v.isText = true) : ∃ s, v = .text s := by
  cases v with
  | text s => exact ⟨s, rfl⟩
  | _ => simp [isText] at h

theorem eq_text_of_beq {s : String} (h : (v == .text s) = true) : v = .text s := by
  change v.same (.text s) = true at h
  cases v with
  | text t =>
    rw [same, beq_iff_eq] at h
    rw [h]
  | _ => simp [same] at h

theorem beq_eq_true_iff {w : Value} (hw : w.isText = true) : (v == w) = true ↔ v = w := by
  obtain ⟨s, rfl⟩ := exists_eq_text hw
  exact ⟨eq_text_of_beq, fun h => h ▸ BEq.rfl⟩

theorem beq_list_eq_true_iff {vs ws : List Value} (hws : ∀ w ∈ ws, w.isText = true) : (vs == ws) = true ↔ vs = ws := by
  induction ws generalizing vs with
  | nil => cases vs <;> simp
  | cons w ws ih =>
    obtain ⟨hw, hws⟩ := List.forall_mem_cons.1 hws
    cases vs with
    | nil => simp
    | cons v vs => rw [List.cons_beq_cons, Bool.and_eq_true, beq_eq_true_iff hw, ih hws, List.cons.injEq]

theorem isKey_of_isText (h : v.isText = true) : v.isKey = true := by
  obtain ⟨s, rfl⟩ := exists_eq_text h
  rfl

theorem succeeds_asText (h : v.isText = true) : Succeeds v.asText := by
  obtain ⟨s, rfl⟩ := exists_eq_text h
  exact ⟨s, rfl, trivial⟩

theorem succeeds_asKey (h : v.isText = true) : Succeeds v.asKey :=
  ⟨v, asKey_of_isKey (isKey_of_isText h), trivial⟩

theorem succeeds_isAmong (h : v.isText = true) (words : List String) : Succeeds (v.isAmong words) :=
  .bind (succeeds_asKey h) fun _ _ => .pure trivial

theorem exists_text_of_isAmong {words : List String} (h : v.isAmong words = .ok true) : ∃ s ∈ words, v = .text s := by
  obtain ⟨key, hkey, h⟩ := Outcome.bind_eq_ok.1 h
  have hv : v = key := by
    unfold asKey at hkey
    split at hkey
    · exact Except.ok.inj hkey
    · cases hkey
  rw [hv]
  have hone := Outcome.pure_eq_ok.1 h
  cases key with
  | text s => exact ⟨s, List.contains_iff_mem.1 hone, rfl⟩
  | _ => cases hone

theorem isText_or {w : Value} (hv : v.isText = true) (hw : w.isText = true) : (v.or w).isText = true := by
  unfold Value.or
  split
  · exact hv
  · exact hw

end Value

def Node.isLegible (n : Node) : Bool :=
  n.name.isText && n.pathName.isText && n.text.isText
    && (match n.typeString with
      | .ok type => type.isText
      | .error _ => false)
    && (match n.attr? "names" with
      | none | some (.list _) => true
      | some _ => false)

/-- Whether the words in all trees of an arena are texts. -/
def Arena.isLegible (a : Arena) : Bool :=
  a.nodes.all Node.isLegible

namespace Arena

variable {a : Arena}

theorem isLegible_node (h : a.isLegible = true) (n : NodeId) : (a.node n).isLegible = true := by
  by_cases hn : n < a.size
  · have hget : a.node n = a.nodes[n] := by
      simp [node, Array.getElem?_eq_getElem hn]
    rw [hget]
    exact Array.all_eq_true.1 h n hn
  · rw [node_of_not_lt hn]
    rfl

theorem isText_name (h : a.isLegible = true) (n : NodeId) : (a.name n).isText = true := by
  have := isLegible_node h n
  simp only [Node.isLegible, Bool.and_eq_true] at this
  exact this.1.1.1.1

theorem isText_pathName (h : a.isLegible = true) (n : NodeId) : (a.node n).pathName.isText = true := by
  have := isLegible_node h n
  simp only [Node.isLegible, Bool.and_eq_true] at this
  exact this.1.1.1.2

theorem isText_text (h : a.isLegible = true) (n : NodeId) : (a.text n).isText = true := by
  have := isLegible_node h n
  simp only [Node.isLegible, Bool.and_eq_true] at this
  exact this.1.1.2

theorem succeeds_typeString (h : a.isLegible = true) (n : NodeId) :
    Succeeds (a.node n).typeString (·.isText = true) := by
  have := isLegible_node h n
  simp only [Node.isLegible, Bool.and_eq_true] at this
  have htype := this.1.2
  split at htype
  · next type heq => exact ⟨type, heq, htype⟩
  · simp at htype

theorem names_eq_list (h : a.isLegible = true) {n : NodeId} {v : Value}
    (hv : (a.node n).attr? "names" = some v) : ∃ names, v = .list names := by
  have := isLegible_node h n
  simp only [Node.isLegible, Bool.and_eq_true] at this
  have hnames := this.2
  rw [hv] at hnames
  cases v with
  | list names => exact ⟨names, rfl⟩
  | _ => simp at hnames

theorem succeeds_typeNameText (h : a.isLegible = true) (n : NodeId) :
    Succeeds (a.typeNameText n) (·.isText = true) := by
  have hsub (role : String) (c : NodeId) (hc : a.child? n role = some c) :
      Succeeds (a.typeNameText c) (·.isText = true) := by
    have := a.lt_of_child? hc
    exact succeeds_typeNameText h c
  unfold typeNameText
  have hstring := succeeds_typeString h n
  have hname : (a.node n).name.isText = true := isText_name h n
  simp only
  split
  · split
    · exact .pure hname
    · exact hstring
  · split
    · exact .pure (isText_pathName h _)
    · split
      · exact .pure (isText_pathName h n)
      · exact hstring
  · refine .bind (P := (·.isText = true)) ?_ fun key _ => ?_
    · split
      · exact .pure rfl
      · next c hc => exact hsub _ c hc
    · refine .bind (P := (·.isText = true)) ?_ fun value _ => .pure rfl
      split
      · exact .pure rfl
      · next c hc => exact hsub _ c hc
  · refine .bind (P := (·.isText = true)) ?_ fun base _ => .pure rfl
    split
    · exact .pure rfl
    · next c hc => exact hsub _ c hc
  · exact .pure rfl
  · exact .bind hstring fun type htype => .pure (Value.isText_or (Value.isText_or htype hname) rfl)
termination_by a.size - n

theorem succeeds_typeNameText? (h : a.isLegible = true) (n : Option NodeId) :
    Succeeds (a.typeNameText? n) (·.isText = true) := by
  cases n with
  | none => exact .pure rfl
  | some n => exact succeeds_typeNameText h n

theorem succeeds_declaredType (h : a.isLegible = true) (decl : NodeId) :
    Succeeds (a.declaredType decl) (·.isText = true) := by
  refine .bind (succeeds_typeString h decl) fun type htype => ?_
  split
  · exact .pure htype
  · exact succeeds_typeNameText? h _

end Arena

namespace Outline

variable {o : Outline}

theorem succeeds_contractNamed {name : Value} (hname : name.isText = true) : Succeeds (o.contractNamed name) :=
  .bind (Value.succeeds_asKey hname) fun _ _ => .pure trivial

theorem succeeds_enclosingContract (h : o.arena.isLegible = true) (n : NodeId) : Succeeds (o.enclosingContract n) := by
  unfold enclosingContract
  split
  · exact .pure trivial
  · exact .bind (Value.succeeds_asKey (Arena.isText_name h _)) fun _ _ => .pure trivial

theorem succeeds_resolveDeclaration (h : o.arena.isLegible = true) (n : NodeId) :
    Succeeds (o.resolveDeclaration n) := by
  unfold resolveDeclaration
  simp only
  split
  · exact .pure trivial
  · split
    · exact .pure trivial
    · split
      · exact .pure trivial
      · refine .bind (succeeds_enclosingContract h n) fun home _ => ?_
        split
        · exact .pure trivial
        · refine .bind (succeeds_contractNamed (Arena.isText_text h n)) fun found _ => ?_
          split
          · exact .pure trivial
          · exact .pure trivial

end Outline

namespace Program

variable {p : Program} (h : p.arena.isLegible = true)

include h

theorem succeeds_lookUp (n : NodeId) : Succeeds (p.lookUp n) := by
  unfold lookUp
  rw [Memo.get_eq]
  exact Outline.succeeds_resolveDeclaration h n

theorem succeeds_home (n : NodeId) : Succeeds (p.home n) := by
  unfold home
  rw [Memo.get_eq]
  exact Outline.succeeds_enclosingContract h n

theorem succeeds_findVariable (n : NodeId) : Succeeds (p.findVariable n) := by
  unfold findVariable
  split
  · exact .bind (succeeds_lookUp h n) fun _ _ => .pure trivial
  · exact .pure trivial

theorem succeeds_findRoot (n : NodeId) : Succeeds (p.findRoot n) := by
  unfold findRoot
  split
  · exact .pure trivial
  · exact succeeds_findVariable h _

theorem succeeds_declaredType (decl : NodeId) : Succeeds (p.declaredType decl) (·.isText = true) := by
  refine .bind (Arena.succeeds_typeString h decl) fun type htype => ?_
  split
  · exact .pure htype
  · refine .bind (Arena.succeeds_typeNameText? h _) fun text htext => ?_
    refine .bind (Outline.succeeds_contractNamed htext) fun found _ => ?_
    split
    · exact .pure htext
    · exact .pure rfl

theorem succeeds_typeOfName (n : NodeId) : Succeeds (p.typeOfName n) (·.isText = true) := by
  unfold typeOfName
  simp only
  split
  · refine .bind (succeeds_home h n) fun home _ => ?_
    split
    · exact .pure rfl
    · exact .pure rfl
  · refine .bind (succeeds_lookUp h n) fun decl _ => ?_
    split
    · exact .pure rfl
    · split
      · exact succeeds_declaredType h _
      · exact .pure rfl
      · exact .pure rfl

theorem succeeds_typeOfCall (n : NodeId) : Succeeds (p.typeOfCall n) (·.isText = true) := by
  unfold typeOfCall
  simp only
  split
  · exact .pure rfl
  · split
    · exact .pure (Arena.isText_text h _)
    · refine .bind (succeeds_lookUp h _) fun decl _ => ?_
      split
      · exact .pure rfl
      · exact .pure rfl
    · exact .pure rfl

theorem succeeds_typeOf (n : NodeId) : Succeeds (p.typeOf n) (·.isText = true) := by
  unfold typeOf
  refine .bind (Arena.succeeds_typeString h n) fun type htype => ?_
  split
  · exact .pure htype
  · split
    · exact succeeds_typeOfName h n
    · exact .pure rfl
    · exact succeeds_typeOfCall h n
    · split
      · exact .pure rfl
      · next c hc =>
        have := p.arena.lt_of_inner? hc
        exact succeeds_typeOf c
    · exact .pure rfl
termination_by p.arena.size - n

theorem succeeds_typeOf? (n : Option NodeId) : Succeeds (p.typeOf? n) (·.isText = true) := by
  cases n with
  | none => exact .pure rfl
  | some n => exact succeeds_typeOf h n

end Program

end ContractFlow
