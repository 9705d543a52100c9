import ContractFlow.Proofs.Control.Run
import ContractFlow.Proofs.Control.Structure

/-!
This module shows that a body wrapped by modifiers is entered only through their placeholders, from the outermost
modifier to the innermost one.
-/

namespace ContractFlow

namespace Draft

def IsMark (a : Arena) (d : Draft) (m : CallableId) (i : Nat) : Prop :=
  ∃ n, d.points.toList[i]? = some ⟨.visit n, m⟩ ∧ a.kind n = .placeholderStatement

def IsOwned (d : Draft) (f : CallableId) (i : Nat) : Prop :=
  ∃ kind, d.points.toList[i]? = some ⟨kind, f⟩

/--
Within `outer` there is one shell inside the other for each of the wrapping callables. A shell holds all that `f` owns
and is entered only from the marks of its callable in the shell around it.
-/
def Shells (a : Arena) (d : Draft) (f : CallableId) (outer : Nat → Prop) : List CallableId → Prop
  | [] => True
  | m :: ms => ∃ shell : Nat → Prop, (∀ i, shell i → outer i) ∧ (∀ i, outer i → d.IsOwned f i → shell i) ∧
      (∀ i j, d.HasEdge i j → shell j → shell i ∨ outer i ∧ d.IsMark a m i) ∧ Shells a d f shell ms

variable {a : Arena} {d d' : Draft} {f m : CallableId} {ms : List CallableId} {outer outer' : Nat → Prop}
  {i j low : Nat}

theorem getElem?_points_eq (h : d.points.toList <+: d'.points.toList) (hi : i < d.size) :
    d'.points.toList[i]? = d.points.toList[i]? := by
  obtain ⟨made, hmade⟩ := h
  rw [← hmade]
  exact List.getElem?_append_left hi

theorem IsOwned.lt (h : d.IsOwned f i) : i < d.size := by
  obtain ⟨kind, h⟩ := h
  exact (List.getElem?_eq_some_iff.1 h).1

theorem IsMark.lt (h : d.IsMark a m i) : i < d.size := by
  obtain ⟨n, h, -⟩ := h
  exact (List.getElem?_eq_some_iff.1 h).1

theorem IsMark.grow (h : d.IsMark a m i) (hpoints : d.points.toList <+: d'.points.toList) : d'.IsMark a m i := by
  have hlt := h.lt
  obtain ⟨n, hn, hkind⟩ := h
  exact ⟨n, by rw [getElem?_points_eq hpoints hlt, hn], hkind⟩

theorem isOwned_of_extends (hpoints : d.points.toList <+: d'.points.toList) (hi : i < d.size)
    (h : d'.IsOwned f i) : d.IsOwned f i := by
  unfold IsOwned at h ⊢
  rwa [getElem?_points_eq hpoints hi] at h

namespace Shells

theorem empty (ms : List CallableId) : d.Shells a f (fun _ => False) ms := by
  induction ms with
  | nil => trivial
  | cons m ms ih => exact ⟨_, fun _ => id, fun _ hi _ => hi, fun _ _ _ hj => .inl hj.elim, ih⟩

theorem union (h : d.Shells a f outer ms) (h' : d.Shells a f outer' ms) :
    d.Shells a f (fun i => outer i ∨ outer' i) ms := by
  induction ms generalizing outer outer' with
  | nil => trivial
  | cons m ms ih =>
    obtain ⟨shell, hsub, howned, hedge, hrest⟩ := h
    obtain ⟨shell', hsub', howned', hedge', hrest'⟩ := h'
    refine ⟨fun i => shell i ∨ shell' i, ?_, ?_, ?_, ih hrest hrest'⟩
    · exact fun i => Or.imp (hsub i) (hsub' i)
    · exact fun i hi hf => hi.imp (howned i · hf) (howned' i · hf)
    · intro i j hij hj
      rcases hj with hj | hj
      · have := hedge i j hij hj
        tauto
      · have := hedge' i j hij hj
        tauto

theorem grow (h : d.Shells a f outer ms) (hpoints : d.points.toList <+: d'.points.toList)
    (hlt : ∀ i, outer i → i < d.size) (hedge : ∀ i j, d'.HasEdge i j → outer j → d.HasEdge i j) :
    d'.Shells a f outer ms := by
  induction ms generalizing outer with
  | nil => trivial
  | cons m ms ih =>
    obtain ⟨shell, hsub, howned, hin, hrest⟩ := h
    refine ⟨shell, hsub, ?_, ?_, ?_⟩
    · exact fun i hi hf => howned i hi (isOwned_of_extends hpoints (hlt i hi) hf)
    · intro i j hij hj
      apply (hin i j (hedge i j hij (hsub j hj)) hj).imp_right
      exact fun hi => ⟨hi.1, hi.2.grow hpoints⟩
    · apply ih hrest
      · exact fun i hi => hlt i (hsub i hi)
      · exact fun i j hij hj => hedge i j hij (hsub j hj)

end Shells

structure Wrapping (a : Arena) (low : Nat) (m f : CallableId) (ms : List CallableId) (d : Draft)
    (shell : Nat → Prop) : Prop where
  range : ∀ i, shell i → low ≤ i ∧ i < d.size
  owned : ∀ i, low ≤ i → d.IsOwned f i → shell i
  edge : ∀ i j, d.HasEdge i j → shell j → shell i ∨ low ≤ i ∧ d.IsMark a m i
  shells : d.Shells a f shell ms

theorem getElem?_points_extend (p : Point) (ps : Pending) : (d.extend p ps).2.points.toList[d.size]? = some p := by
  rw [points_extend, Array.toList_push]
  exact List.getElem?_concat_length

namespace Wrapping

variable {shell : Nat → Prop} (h : Wrapping a low m f ms d shell)

include h

theorem grow (hpoints : d.points.toList <+: d'.points.toList)
    (hedge : ∀ i j, d'.HasEdge i j → shell j → d.HasEdge i j) (hnew : ∀ i, d.size ≤ i → ¬d'.IsOwned f i) :
    Wrapping a low m f ms d' shell := by
  have hlt (i : Nat) (hi : shell i) : i < d.size := (h.range i hi).2
  constructor
  · exact fun i hi => ⟨(h.range i hi).1, Nat.lt_of_lt_of_le (hlt i hi) hpoints.length_le⟩
  · intro i hi hf
    apply h.owned i hi
    apply isOwned_of_extends hpoints _ hf
    exact Nat.lt_of_not_le fun hle => hnew i hle hf
  · intro i j hij hj
    apply (h.edge i j (hedge i j hij hj) hj).imp_right
    exact fun hi => ⟨hi.1, hi.2.grow hpoints⟩
  · exact h.shells.grow hpoints hlt hedge

theorem connect (ps : Pending) {target : Nat} (htarget : ¬shell target) :
    Wrapping a low m f ms (d.connect ps target) shell := by
  apply h.grow
  · simp only [points_connect, List.prefix_rfl]
  · intro i j hij hj
    rcases (hasEdge_connect ps target).1 hij with hij | ⟨-, rfl⟩
    · exact hij
    · exact absurd hj htarget
  · intro i hi hf
    have hlt := hf.lt
    rw [size_connect] at hlt
    omega

theorem extend (kind : PointKind) (ps : Pending) (hm : m ≠ f) :
    Wrapping a low m f ms (d.extend ⟨kind, m⟩ ps).2 shell := by
  apply h.grow
  · rw [points_extend, Array.toList_push]
    exact List.prefix_append _ _
  · intro i j hij hj
    rcases (hasEdge_extend _ ps).1 hij with hij | ⟨-, rfl⟩
    · exact hij
    · exact absurd (h.range _ hj).2 (Nat.lt_irrefl _)
  · intro i hi hf
    have hlt := hf.lt
    rw [size_extend] at hlt
    obtain rfl : i = d.size := by omega
    obtain ⟨kind', hf⟩ := hf
    rw [getElem?_points_extend] at hf
    exact hm (congrArg Point.owner (Option.some.inj hf))

theorem enter {ps stops : List Nat} (hregion : Region ps d d' stops) (hlow : low ≤ d.size) (hexit : exit < low)
    (hps : ∀ i ∈ ps, low ≤ i ∧ d.IsMark a m i)
    (hshells : d'.Shells a f (fun i => d.size ≤ i ∧ i < d'.size) ms) :
    Wrapping a low m f ms d' fun i => shell i ∨ d.size ≤ i ∧ i < d'.size := by
  obtain ⟨made, hmade, -⟩ := hregion.points
  have hpoints : d.points.toList <+: d'.points.toList := ⟨made, hmade.symm⟩
  have hedge (i j : Nat) (hij : d'.HasEdge i j) (hj : shell j) : d.HasEdge i j := by
    have hrange := h.range j hj
    exact (hregion.old i j hrange.2 (by omega)).1 hij
  have hle := hregion.le
  constructor
  · rintro i (hi | hi)
    · have := h.range i hi
      omega
    · omega
  · intro i hi hf
    by_cases hnew : i < d.size
    · exact .inl (h.owned i hi (isOwned_of_extends hpoints hnew hf))
    · exact .inr ⟨Nat.le_of_not_lt hnew, hf.lt⟩
  · rintro i j hij (hj | hj)
    · rcases h.edge i j (hedge i j hij hj) hj with hi | ⟨hi, hmark⟩
      · exact .inl (.inl hi)
      · exact .inr ⟨hi, hmark.grow hpoints⟩
    · rcases (hregion.new i j hj.1 hij).1 with hi | hi
      · exact .inr ⟨(hps i hi).1, (hps i hi).2.grow hpoints⟩
      · exact .inl (.inr hi)
  · exact (h.shells.grow hpoints (fun i hi => (h.range i hi).2) hedge).union hshells

end Wrapping

def Continues (a : Arena) (low : Nat) (m f : CallableId) (ms : List CallableId) (d d' : Draft) : Prop :=
  d.size ≤ d'.size ∧ ∀ shell, Wrapping a low m f ms d shell →
    ∃ shell', Wrapping a low m f ms d' shell' ∧ ∀ i, shell' i → shell i ∨ d.size ≤ i

namespace Continues

variable {d₁ d₂ : Draft}

theorem refl (d : Draft) : Continues a low m f ms d d :=
  ⟨Nat.le_refl _, fun shell h => ⟨shell, h, fun _ => .inl⟩⟩

theorem trans (h₁ : Continues a low m f ms d d₁) (h₂ : Continues a low m f ms d₁ d₂) : Continues a low m f ms d d₂ := by
  refine ⟨Nat.le_trans h₁.1 h₂.1, fun shell h => ?_⟩
  obtain ⟨shell₁, hshell₁, hnew₁⟩ := h₁.2 shell h
  obtain ⟨shell₂, hshell₂, hnew₂⟩ := h₂.2 shell₁ hshell₁
  refine ⟨shell₂, hshell₂, fun i hi => ?_⟩
  rcases hnew₂ i hi with hi | hi
  · exact hnew₁ i hi
  · exact .inr (Nat.le_trans h₁.1 hi)

theorem extend (d : Draft) (kind : PointKind) (ps : Pending) (hm : m ≠ f) :
    Continues a low m f ms d (d.extend ⟨kind, m⟩ ps).2 := by
  constructor
  · simp
  · exact fun shell h => ⟨shell, h.extend kind ps hm, fun _ => .inl⟩

theorem merge (d : Draft) (ps : Pending) (hm : m ≠ f) : Continues a low m f ms d (d.merge m ps).2 := by
  unfold Draft.merge
  split
  · exact refl d
  · exact refl d
  · exact extend d .join _ hm

theorem stop (d : Draft) (ps : Pending) (hexit : exit < low) : Continues a low m f ms d (d.connect ps exit) := by
  constructor
  · simp
  · intro shell h
    refine ⟨shell, h.connect ps fun hi => ?_, fun _ => .inl⟩
    exact absurd (h.range _ hi).1 (Nat.not_le_of_lt hexit)

theorem loopBack {ps back : Pending} (hm : m ≠ f)
    (h : Continues a low m f ms (d.extend ⟨.join, m⟩ ps).2 d₁) :
    Continues a low m f ms d (d₁.connect back d.size) := by
  have hle := h.1
  rw [size_extend] at hle
  constructor
  · rw [size_connect]
    omega
  · intro shell hshell
    obtain ⟨shell₁, hshell₁, hnew⟩ := h.2 shell (hshell.extend .join ps hm)
    rw [size_extend] at hnew
    refine ⟨shell₁, hshell₁.connect back fun hi => ?_, fun i hi => ?_⟩
    · rcases hnew _ hi with hi | hi
      · exact absurd (hshell.range _ hi).2 (Nat.lt_irrefl _)
      · omega
    · exact (hnew i hi).imp_right fun hi => by omega

end Continues

end Draft

namespace Control

inductive Marked (a : Arena) : Control → Prop
  | skip : Marked a .skip
  | stuck : Marked a .stuck
  | visit (n : NodeId) : Marked a (.visit n)
  | leave (way : Departure) : Marked a (.leave way)
  | stop : Marked a .stop
  | placeholder {n : NodeId} (h : a.kind n = .placeholderStatement) : Marked a (.seq (.visit n) .hole)
  | seq {first second : Control} : Marked a first → Marked a second → Marked a (.seq first second)
  | either {first second : Control} : Marked a first → Marked a second → Marked a (.either first second)
  | label {kind : EdgeKind} {part : Control} : Marked a part → Marked a (.label kind part)
  | join {part : Control} : Marked a part → Marked a (.join part)
  | branch {condition yes no : Control} : Marked a condition → Marked a yes → Marked a no →
      Marked a (.branch condition yes no)
  | loop {condition body next : Control} : Marked a condition → Marked a body → Marked a next →
      Marked a (.loop condition body next)
  | doLoop {body condition : Control} : Marked a body → Marked a condition → Marked a (.doLoop body condition)

def Hole.HasShells (a : Arena) (f : CallableId) (ms : List CallableId) (inner : Hole) : Prop :=
  ∀ ps d, d.Placed (Pending.sources ps) →
    (inner ps d).2.Shells a f (fun i => d.size ≤ i ∧ i < (inner ps d).2.size) ms

section Build

variable {a : Arena} {low : Nat} {m f : CallableId} {ms : List CallableId} {inner : Hole}

theorem continues_if_nonempty {next : Control} {latch : Pending} {d : Draft}
    (h : Draft.Continues a low m f ms d (next.build m inner latch d).2) :
    Draft.Continues a low m f ms d
      (if latch.isEmpty then (⟨[], [], [], []⟩, d) else next.build m inner latch d).2 := by
  split
  · exact .refl d
  · exact h

theorem continues_build (hpart : inner.IsPart) (hshells : inner.HasShells a f ms) (hm : m ≠ f)
    (hexit : Draft.exit < low) {c : Control} (hc : Marked a c) {ps : Pending} {d : Draft}
    (hp : d.Placed ps.sources) (hlow : low ≤ d.size) :
    Draft.Continues a low m f ms d (c.build m inner ps d).2 := by
  induction hc generalizing ps d with
  | skip | stuck => exact .refl d
  | visit n => exact .extend d _ ps hm
  | leave way => cases way <;> exact .refl d
  | stop => exact .stop d ps hexit
  | @placeholder n hn =>
    have hvisit := Built.extend ps hp.toSound (p := ⟨.visit n, m⟩) (by simp)
    have hp₁ := hvisit.placed_fall hp
    obtain ⟨stops, hinner⟩ := hpart _ _ hp₁
    apply (Draft.Continues.extend d (.visit n) ps hm).trans
    refine ⟨hinner.le, fun shell h => ⟨_, h.enter hinner.toRegion ?_ hexit ?_ (hshells _ _ hp₁), ?_⟩⟩
    · exact Nat.le_trans hlow hvisit.le
    · intro i hi
      obtain rfl : i = d.size := by simpa using hi
      exact ⟨hlow, n, Draft.getElem?_points_extend _ _, hn⟩
    · exact fun i hi => hi.imp_right And.left
  | @seq first second _ _ ih₁ ih₂ =>
    obtain ⟨s₁, h₁⟩ := built_build m hpart first hp
    exact (ih₁ hp hlow).trans (ih₂ (h₁.placed_fall hp) (Nat.le_trans hlow h₁.le))
  | @either first second _ _ ih₁ ih₂ =>
    obtain ⟨s₁, h₁⟩ := built_build m hpart first hp
    exact (ih₁ hp hlow).trans (ih₂ (h₁.placed_start hp) (Nat.le_trans hlow h₁.le))
  | @label kind part _ ih => exact ih (Pending.sources_relabel kind ps ▸ hp) hlow
  | join _ ih => exact (ih hp hlow).trans (.merge _ _ hm)
  | @branch condition yes no _ _ _ ih₁ ih₂ ih₃ =>
    obtain ⟨s₁, h₁⟩ := built_build m hpart condition hp
    have hp₁ := h₁.placed_true hp condition
    obtain ⟨s₂, h₂⟩ := built_build m hpart yes hp₁
    have hlow₁ := Nat.le_trans hlow h₁.le
    exact ((ih₁ hp hlow).trans (ih₂ hp₁ hlow₁)).trans (ih₃ (h₂.placed_false hp₁) (Nat.le_trans hlow₁ h₂.le))
  | @loop condition body next _ _ _ ih₁ ih₂ ih₃ =>
    have h₀ := Built.extend ps hp.toSound (p := ⟨.join, m⟩) (by simp)
    have hp₀ := h₀.placed_fall hp
    have hlow₀ := Nat.le_trans hlow h₀.le
    obtain ⟨s₁, h₁⟩ := built_build m hpart condition hp₀
    have hp₁ := h₁.placed_true hp₀ condition
    have hlow₁ := Nat.le_trans hlow₀ h₁.le
    obtain ⟨s₂, h₂⟩ := built_build m hpart body hp₁
    have hp₂ := h₂.placed_latch hp₁
    have hlow₂ := Nat.le_trans hlow₁ h₂.le
    apply Draft.Continues.loopBack hm
    exact ((ih₁ hp₀ hlow₀).trans (ih₂ hp₁ hlow₁)).trans (continues_if_nonempty (ih₃ hp₂ hlow₂))
  | @doLoop body condition _ _ ih₁ ih₂ =>
    have h₀ := Built.extend ps hp.toSound (p := ⟨.join, m⟩) (by simp)
    have hp₀ := h₀.placed_fall hp
    have hlow₀ := Nat.le_trans hlow h₀.le
    obtain ⟨s₁, h₁⟩ := built_build m hpart body hp₀
    have hp₁ := h₁.placed_latch hp₀
    apply Draft.Continues.loopBack hm
    exact (ih₁ hp₀ hlow₀).trans (continues_if_nonempty (ih₂ hp₁ (Nat.le_trans hlow₀ h₁.le)))

end Build

end Control

namespace Layer

variable {a : Arena} {f : CallableId}

theorem hasShells_run {inner : Control.Hole} {ms : List CallableId} {l : Layer} (hpart : inner.IsPart)
    (hshells : inner.HasShells a f ms) (hl : l.owner ≠ f) (hbody : l.body.Marked a) :
    (l.run inner).HasShells a f (l.owner :: ms) := by
  intro ps d hp
  have hstart : Draft.Wrapping a d.size l.owner f ms d fun _ => False := by
    constructor
    · exact fun i hi => hi.elim
    · exact fun i hi hf => absurd hf.lt (Nat.not_lt_of_le hi)
    · exact fun i j _ hj => hj.elim
    · exact .empty ms
  obtain ⟨-, hcontinues⟩ := Control.continues_build hpart hshells hl hp.exit_lt hbody hp (Nat.le_refl _)
  obtain ⟨shell, hshell, -⟩ := hcontinues _ hstart
  refine ⟨shell, hshell.range, ?_, ?_, hshell.shells⟩
  · exact fun i hi hf => hshell.owned i hi.1 hf
  · intro i j hij hj
    exact (hshell.edge i j hij hj).imp_right fun hi => ⟨⟨hi.1, hi.2.lt⟩, hi.2⟩

theorem hasShells_runAll (layers : List Layer) (l : Layer)
    (hlayers : ∀ k ∈ layers, k.owner ≠ f ∧ k.body.Marked a) :
    (runAll (layers ++ [l])).HasShells a f (layers.map owner) := by
  induction layers with
  | nil => exact fun ps d _ => trivial
  | cons k layers ih =>
    have hk := hlayers k List.mem_cons_self
    apply hasShells_run (isPart_runAll _) (ih fun k hk => hlayers k (List.mem_cons_of_mem _ hk)) hk.1 hk.2

end Layer

namespace Arena

open Control

variable (a : Arena)

theorem lifts_marked : Lifts (Marked a) where
  skip := .skip
  visit := .visit
  seq := .seq
  short _ _ hpart := .either (.label hpart) (.label .skip)
  branch := .branch

theorem marked_anyOf {cs : List Control} (h : ∀ c ∈ cs, c.Marked a) : (Control.anyOf cs).Marked a := by
  induction cs with
  | nil => exact .stuck
  | cons c cs ih =>
    exact .either (h c List.mem_cons_self) (ih fun c hc => h c (List.mem_cons_of_mem _ hc))

theorem marked_statementControl (inLoop : Bool) (n : NodeId) : (a.statementControl inLoop n).Marked a := by
  induction n using a.induction_behind generalizing inLoop with
  | step n ih =>
    have hpart := a.lifts_marked.part a n
    have hbody {p : NodeId} (hp : n ≤ p) (inLoop : Bool) (role : String) : (a.bodyPart inLoop p role).Marked a := by
      unfold bodyPart
      split
      · exact .skip
      · next c hc => exact ih c (Nat.lt_of_le_of_lt hp (lt_of_child? hc).1) (lt_of_child? hc).2 inLoop
    have hself := hbody (Nat.le_refl n)
    have hitems : (Control.all ((a.items n "statements").map (a.statementControl inLoop))).Marked a := by
      apply a.lifts_marked.all
      intro c hc
      obtain ⟨s, hs, rfl⟩ := List.mem_map.1 hc
      exact ih s (lt_of_mem_items hs).1 (lt_of_mem_items hs).2 inLoop
    have hclauses : (Control.anyOf (a.clauseControls inLoop n)).Marked a := by
      apply marked_anyOf
      intro c hc
      obtain ⟨⟨k, p⟩, hk, hc⟩ := List.mem_filterMap.1 hc
      obtain ⟨k, rfl, rfl⟩ := Option.map_eq_some_iff.1 hc
      have hlt := (lt_of_mem_entries (List.fst_mem_of_mem_zipIdx hk)).1
      exact .label (.seq (.visit k) (hbody (Nat.le_of_lt hlt) inLoop _))
    rw [statementControl_eq]
    split
    · exact hitems
    · exact hitems
    · exact .seq (.visit n) (.join (.branch (hpart _) (hself _ _) (hself _ _)))
    · exact .seq (.visit n) (.seq (hself _ _) (.loop (hpart _) (hself _ _) (hself _ _)))
    · exact .seq (.visit n) (.seq (hself _ _) (.loop (hpart _) (hself _ _) (hself _ _)))
    · exact .seq (.visit n) (.doLoop (hself _ _) (hpart _))
    · apply Marked.seq (.visit n)
      apply Marked.seq (hpart _)
      apply Marked.join
      split
      · exact .skip
      · exact hclauses
    · exact .seq (hpart _) (.seq (.visit n) (.leave _))
    · exact .seq (hpart _) (.seq (.visit n) .stop)
    · exact .seq (hpart _) (.seq (.visit n) .stop)
    · apply Marked.seq (.visit n)
      split
      · exact .leave _
      · exact .skip
    · apply Marked.seq (.visit n)
      split
      · exact .leave _
      · exact .skip
    · next hkind => exact .placeholder hkind
    · apply Marked.seq (hpart _)
      apply Marked.seq (.visit n)
      split
      · exact .stop
      · exact .skip
    · exact .seq (hpart _) (.visit n)
    · exact .seq (hpart _) (.visit n)
    · exact .visit n

theorem marked_bodyControl (body : Option NodeId) : (a.bodyControl body).Marked a := by
  cases body with
  | none => exact .skip
  | some n => exact a.marked_statementControl false n

end Arena

namespace ControlGraph

variable {a : Arena} {g : ControlGraph} {f m : CallableId} {ms : List CallableId} {outer shell : Nat → Prop}
  {path : List Nat} {i : Nat}

theorem Run.exists_mark (hrun : g.Run path i) (hshell : shell i) (hentry : ¬shell Draft.entry)
    (hedge : ∀ i j, g.HasEdge i j → shell j → shell i ∨ outer i ∧ g.IsMark a m i) :
    ∃ before q after, path = before ++ q :: after ++ [i] ∧ g.Run (before ++ [q]) q ∧ outer q ∧
      g.IsMark a m q := by
  induction hrun with
  | entry => exact absurd hshell hentry
  | @step path i j hrun hnext ih =>
    rcases hedge i j (mem_next_iff.1 hnext) hshell with hi | hi
    · obtain ⟨before, q, after, rfl, hq⟩ := ih hi
      exact ⟨before, q, after ++ [i], by simp, hq⟩
    · obtain ⟨front, rfl⟩ := hrun.eq_append
      exact ⟨front, i, [], by simp, hrun, hi⟩

theorem Run.exists_marks (hshells : g.Shells a f outer ms) (hrun : g.Run path i) (hi : outer i)
    (howned : g.IsOwned f i) (hentry : ¬outer Draft.entry) :
    ∃ before j after, path = before ++ j :: after ∧ g.Run (before ++ [j]) j ∧ outer j ∧
      ∃ marks, marks.Sublist (j :: after) ∧ List.Forall₂ (fun q m => g.IsMark a m q) marks ms := by
  induction ms generalizing outer with
  | nil =>
    obtain ⟨front, rfl⟩ := hrun.eq_append
    exact ⟨front, i, [], rfl, hrun, hi, [], List.nil_sublist _, .nil⟩
  | cons m ms ih =>
    obtain ⟨shell, hsub, hin, hedge, hrest⟩ := hshells
    obtain ⟨before, j, after, rfl, hj, hshell, marks, hmarks, hall⟩ :=
      ih hrest (hin i hi howned) fun h => hentry (hsub _ h)
    obtain ⟨before', q, between, hbefore, hq, houter, hmark⟩ :=
      hj.exists_mark hshell (fun h => hentry (hsub _ h)) hedge
    obtain rfl := List.append_cancel_right hbefore
    refine ⟨before', q, between ++ j :: after, by simp, hq, houter, q :: marks, ?_, .cons hmark hall⟩
    exact (hmarks.trans (List.sublist_append_right _ _)).cons_cons q

theorem point_of_getElem? {p : Point} (h : g.points.toList[i]? = some p) : g.point i = p := by
  rw [point, Array.getD_eq_getD_getElem?, ← Array.getElem?_toList, h]
  rfl

theorem Run.lt_size (hrun : g.Run path i) (hg : g.Sound) : i < g.size := by
  cases hrun with
  | entry => exact Nat.lt_trans (by decide) hg.exit_lt
  | step _ hnext => exact (hg.edge _ _ (mem_next_iff.1 hnext)).2.2.1

theorem two_le_of_kind (hg : g.Sound) (hkind : (g.point i).kind ≠ .entry ∧ (g.point i).kind ≠ .exit) : 2 ≤ i := by
  obtain ⟨owner, rest, hpoints, -⟩ := hg.entry_point
  match i with
  | 0 =>
    have hentry : g.points.toList[0]? = some ⟨.entry, owner⟩ := by rw [hpoints]; rfl
    exact absurd (congrArg Point.kind (point_of_getElem? hentry)) hkind.1
  | 1 =>
    have hexit : g.points.toList[1]? = some ⟨.exit, owner⟩ := by rw [hpoints]; rfl
    exact absurd (congrArg Point.kind (point_of_getElem? hexit)) hkind.2
  | i + 2 => omega

variable {layers : List Layer} {body : Control}

theorem shells_ofLayers (hlayers : ∀ k ∈ layers, k.owner ≠ f ∧ k.body.Marked a) :
    (ofLayers f layers body).Shells a f (fun i => 2 ≤ i ∧ i < (ofLayers f layers body).size)
      (layers.map Layer.owner) := by
  have hstart : (Draft.start f).Placed (Pending.sources [(Draft.entry, .normal)]) :=
    ⟨Draft.sound_start f, by simp [Draft.entry, Draft.exit, Draft.start, Draft.size]⟩
  have hshells := Layer.hasShells_runAll layers ⟨f, body⟩ hlayers _ _ hstart
  have hsize : (ofLayers f layers body).size
      = (Layer.runAll (layers ++ [⟨f, body⟩]) [(Draft.entry, .normal)] (.start f)).2.size :=
    Draft.size_connect _ _ _
  rw [hsize]
  apply hshells.grow
  · change _ <+: (Draft.connect _ _ _).points.toList
    rw [Draft.points_connect]
    exact List.prefix_rfl
  · exact fun i hi => hi.2
  · intro i j hij hj
    rcases (Draft.hasEdge_connect _ _).1 hij with hij | ⟨-, rfl⟩
    · exact hij
    · exact absurd hj.1 (Nat.not_succ_le_self 1)

theorem Run.exists_placeholders (hlayers : ∀ k ∈ layers, k.owner ≠ f ∧ k.body.Marked a)
    (hrun : (ofLayers f layers body).Run path i) (howner : ((ofLayers f layers body).point i).owner = f)
    (hkind : ((ofLayers f layers body).point i).kind ≠ .entry ∧
      ((ofLayers f layers body).point i).kind ≠ .exit) :
    ∃ marks, marks.Sublist path ∧ List.Forall₂ (fun q m => ((ofLayers f layers body).point q).owner = m ∧
      ∃ n, (ofLayers f layers body).node? q = some n ∧ a.kind n = .placeholderStatement)
        marks (layers.map Layer.owner) := by
  have hsound := sound_ofLayers f layers body
  have hlt := hrun.lt_size hsound
  have howned : (ofLayers f layers body).IsOwned f i := by
    have hp := List.getElem?_eq_getElem hlt
    rw [point_of_getElem? hp] at howner
    exact ⟨_, hp.trans (congrArg some (congrArg (Point.mk _) howner))⟩
  obtain ⟨before, j, after, rfl, -, -, marks, hmarks, hall⟩ := hrun.exists_marks (shells_ofLayers hlayers)
    ⟨two_le_of_kind hsound hkind, hlt⟩ howned fun h => absurd h.1 (by decide)
  refine ⟨marks, hmarks.trans (List.sublist_append_right _ _), hall.imp ?_⟩
  rintro q m ⟨n, hq, hn⟩
  rw [node?, point_of_getElem? hq]
  exact ⟨rfl, n, rfl, hn⟩

end ControlGraph

end ContractFlow
