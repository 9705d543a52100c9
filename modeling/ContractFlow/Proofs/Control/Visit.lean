import ContractFlow.Proofs.Control.Region
import ContractFlow.Proofs.Control.Structure

/-!
This module says which nodes of a body get a point and shows that none gets more than one.
-/

namespace ContractFlow

def Control.visits : Control → List NodeId
  | skip | stuck | leave _ | stop | hole => []
  | visit n => [n]
  | seq first second | either first second => first.visits ++ second.visits
  | label _ part | join part => part.visits
  | branch condition yes no => condition.visits ++ yes.visits ++ no.visits
  | loop condition body next => condition.visits ++ body.visits ++ next.visits
  | doLoop body condition => body.visits ++ condition.visits

namespace Control

@[simp]
theorem visits_all (cs : List Control) : (all cs).visits = cs.flatMap visits := by
  induction cs with
  | nil => rfl
  | cons c cs ih => rw [all, visits, ih, List.flatMap_cons]

@[simp]
theorem visits_anyOf (cs : List Control) : (anyOf cs).visits = cs.flatMap visits := by
  induction cs with
  | nil => rfl
  | cons c cs ih => rw [anyOf, visits, ih, List.flatMap_cons]

end Control

structure Ends where
  falls : Bool
  breaks : Bool
  continues : Bool
deriving DecidableEq

namespace Ends

def none : Ends := ⟨false, false, false⟩

def andThen (first second : Ends) : Ends :=
  ⟨second.falls, first.breaks || second.breaks, first.continues || second.continues⟩

def or (first second : Ends) : Ends :=
  { first.andThen second with falls := first.falls || second.falls }

/-- Whether the body of a loop has a way to what stands between two rounds. -/
def comesRound (body : Ends) : Bool :=
  body.falls || body.continues

end Ends

def Exits.ends (x : Exits) : Ends :=
  ⟨!x.fall.isEmpty, !x.breaks.isEmpty, !x.continues.isEmpty⟩

namespace Control

/-- The ends of a part by whether there is a way to it. What follows a jump has an end of its own. -/
def ends (entered : Bool) : Control → Ends
  | skip | hole => ⟨entered, false, false⟩
  | stuck | stop | leave .returns => .none
  | visit _ => ⟨true, false, false⟩
  | seq first second => (first.ends entered).andThen (second.ends (first.ends entered).falls)
  | either first second => (first.ends entered).or (second.ends entered)
  | label _ part | join part => part.ends entered
  | branch condition yes no =>
    let test := condition.ends entered
    { test with falls := false }.andThen
      ((yes.ends test.falls).or (no.ends (test.falls && condition != skip)))
  | loop condition body next =>
    let test := condition.ends true
    let round := body.ends test.falls
    let rest := if round.comesRound then next.ends true else .none
    { rest with falls := (test.falls && condition != skip) || round.breaks }
  | doLoop body condition =>
    let round := body.ends true
    let test := if round.comesRound then condition.ends true else .none
    ⟨(test.falls && condition != skip) || round.breaks, false, false⟩
  | leave .breaks => ⟨false, entered, false⟩
  | leave .continues => ⟨false, false, entered⟩

def made (entered : Bool) : Control → List NodeId
  | skip | stuck | leave _ | stop | hole => []
  | visit n => [n]
  | seq first second => first.made entered ++ second.made (first.ends entered).falls
  | either first second => first.made entered ++ second.made entered
  | label _ part | join part => part.made entered
  | branch condition yes no =>
    let test := condition.ends entered
    condition.made entered ++ yes.made test.falls ++ no.made (test.falls && condition != skip)
  | loop condition body next =>
    let round := body.ends (condition.ends true).falls
    condition.made true ++ body.made (condition.ends true).falls
      ++ if round.comesRound then next.made true else []
  | doLoop body condition =>
    body.made true ++ if (body.ends true).comesRound then condition.made true else []

section Build

variable {owner : CallableId} {ps qs : Pending} {d d' : Draft} {c : Control} {v w : List NodeId}

theorem isEmpty_relabel (kind : EdgeKind) (ps : Pending) : (Pending.relabel kind ps).isEmpty = ps.isEmpty := by
  cases ps <;> rfl

theorem isEmpty_outcomes_fst (condition : Control) (ps : Pending) : (outcomes condition ps).1.isEmpty = ps.isEmpty := by
  unfold outcomes
  split
  · rfl
  · exact isEmpty_relabel _ _

theorem isEmpty_outcomes_snd (condition : Control) (ps : Pending) :
    (!(outcomes condition ps).2.isEmpty) = (!ps.isEmpty && condition != skip) := by
  unfold outcomes
  split
  · simp
  · next h =>
    have hne : (condition != skip) = true := bne_iff_ne.2 h
    rw [hne, Bool.and_true, isEmpty_relabel]

theorem isEmpty_merge (d : Draft) (owner : CallableId) (ps : Pending) : (d.merge owner ps).1.isEmpty = ps.isEmpty := by
  unfold Draft.merge
  split
  · rfl
  · rfl
  · next h _ =>
    cases ps with
    | nil => exact absurd rfl h
    | cons => rfl

theorem isEmpty_append (ps qs : Pending) : (ps ++ qs).isEmpty = (ps.isEmpty && qs.isEmpty) := by
  cases ps <;> rfl

theorem ends_andThen (x y : Exits) : (x.andThen y).ends = x.ends.andThen y.ends := by
  simp [Exits.ends, Exits.andThen, Ends.andThen, isEmpty_append]

theorem ends_or (x y : Exits) : (x.or y).ends = x.ends.or y.ends := by
  simp [Exits.ends, Exits.or, Exits.andThen, Ends.or, Ends.andThen, isEmpty_append]

theorem ends_early (x : Exits) : x.early.ends = { x.ends with falls := false } := rfl

theorem ends_leaving (x : Exits) (ps qs rs : Pending) :
    { x with fall := ps ++ qs, returns := rs : Exits }.ends = { x.ends with falls := !ps.isEmpty || !qs.isEmpty } := by
  simp [Exits.ends, isEmpty_append]

theorem isEmpty_extend (d : Draft) (p : Point) (ps : Pending) : (!(d.extend p ps).1.isEmpty) = true := rfl

theorem falls_ends (x : Exits) : x.ends.falls = !x.fall.isEmpty := rfl

theorem breaks_ends (x : Exits) : x.ends.breaks = !x.breaks.isEmpty := rfl

theorem comesRound_ends (x : Exits) : x.ends.comesRound = !(x.fall ++ x.continues).isEmpty := by
  simp [Exits.ends, Ends.comesRound, isEmpty_append]

theorem ends_between (x : Exits) (c : Control) (d : Draft)
    (h : ∀ ps d, (c.build owner noBody ps d).1.ends = c.ends (!ps.isEmpty)) :
    (if (x.fall ++ x.continues).isEmpty then (⟨[], [], [], []⟩, d)
      else c.build owner noBody (x.fall ++ x.continues) d).1.ends
      = if x.ends.comesRound then c.ends true else .none := by
  rw [comesRound_ends]
  split <;> rename_i hlatch
  · simp [hlatch, Exits.ends, Ends.none]
  · rw [h]
    simp [hlatch]

theorem ends_build (owner : CallableId) (c : Control) (ps : Pending) (d : Draft) :
    (c.build owner noBody ps d).1.ends = c.ends (!ps.isEmpty) := by
  induction c generalizing ps d with
  | skip => rfl
  | stuck => rfl
  | visit n => rfl
  | stop => rfl
  | hole => rfl
  | leave way => cases way <;> rfl
  | seq first second ih₁ ih₂ => simp only [build, ends, ends_andThen, ih₁, ih₂, ← falls_ends]
  | either first second ih₁ ih₂ => simp only [build, ends, ends_or, ih₁, ih₂]
  | label kind part ih => simp only [build, ends, ih, isEmpty_relabel]
  | join part ih =>
    have h := ih ps d
    simp only [build, ends, ← h, Exits.ends, isEmpty_merge]
  | branch condition yes no ih₁ ih₂ ih₃ =>
    simp only [build, ends, ends_andThen, ends_or, ends_early, ih₁, ih₂, ih₃, isEmpty_outcomes_fst,
      isEmpty_outcomes_snd, ← falls_ends]
  | loop condition body next ih₁ ih₂ ih₃ =>
    simp only [build, ends, ends_leaving, ends_between _ next _ ih₃, ih₁, ih₂, isEmpty_outcomes_fst,
      isEmpty_outcomes_snd, isEmpty_extend, ← falls_ends, ← breaks_ends]
  | doLoop body condition ih₁ ih₂ =>
    simp only [build, ends_leaving ⟨[], [], [], []⟩, ends_between _ condition _ ih₂, ih₁,
      isEmpty_outcomes_snd, ← falls_ends, ← breaks_ends]
    rfl

end Build

end Control

def Draft.Lays (d d' : Draft) (visits : List NodeId) : Prop :=
  ∃ made, d'.points.toList = d.points.toList ++ made ∧ made.filterMap (·.kind.node?) = visits

namespace Draft.Lays

variable {d d₁ d₂ : Draft} {v w : List NodeId}

theorem refl (d : Draft) : d.Lays d [] :=
  ⟨[], by simp, rfl⟩

theorem trans (h₁ : d.Lays d₁ v) (h₂ : d₁.Lays d₂ w) : d.Lays d₂ (v ++ w) := by
  obtain ⟨made₁, heq₁, rfl⟩ := h₁
  obtain ⟨made₂, heq₂, rfl⟩ := h₂
  exact ⟨made₁ ++ made₂, by rw [heq₂, heq₁, List.append_assoc], List.filterMap_append⟩

theorem of_eq (h : d.Lays d₁ v) (heq : v = w) : d.Lays d₁ w :=
  heq ▸ h

theorem connect (h : d.Lays d₁ v) (ps : Pending) (target : Nat) : d.Lays (d₁.connect ps target) v := by
  unfold Lays
  rw [points_connect]
  exact h

theorem join (h : d.Lays d₁ v) (owner : CallableId) (ps : Pending) : d.Lays (d₁.extend ⟨.join, owner⟩ ps).2 v := by
  obtain ⟨made, heq, rfl⟩ := h
  refine ⟨made ++ [⟨.join, owner⟩], ?_, by simp [PointKind.node?]⟩
  rw [points_extend, Array.toList_push, heq, List.append_assoc]

theorem merge (h : d.Lays d₁ v) (owner : CallableId) (ps : Pending) : d.Lays (d₁.merge owner ps).2 v := by
  unfold Draft.merge
  split
  · exact h
  · exact h
  · exact h.join owner _

end Draft.Lays

namespace Control

theorem lays_between {owner : CallableId} (x : Exits) (c : Control) (d : Draft)
    (h : ∀ ps (d : Draft), d.Lays (c.build owner noBody ps d).2 (c.made (!ps.isEmpty))) :
    d.Lays (if (x.fall ++ x.continues).isEmpty then (⟨[], [], [], []⟩, d)
      else c.build owner noBody (x.fall ++ x.continues) d).2
      (if x.ends.comesRound then c.made true else []) := by
  rw [comesRound_ends]
  split <;> rename_i hlatch
  · simpa [hlatch] using Draft.Lays.refl d
  · simpa [hlatch] using h (x.fall ++ x.continues) d

theorem lays_build (owner : CallableId) (c : Control) (ps : Pending) (d : Draft) :
    d.Lays (c.build owner noBody ps d).2 (c.made (!ps.isEmpty)) := by
  induction c generalizing ps d with
  | visit n =>
    refine ⟨[⟨.visit n, owner⟩], ?_, by simp [made, PointKind.node?]⟩
    rw [build, Draft.points_extend, Array.toList_push]
  | seq first second ih₁ ih₂ =>
    rw [made, ← ends_build owner first ps d]
    exact (ih₁ ps d).trans (ih₂ _ _)
  | either first second ih₁ ih₂ => exact (ih₁ ps d).trans (ih₂ _ _)
  | label kind part ih =>
    rw [← isEmpty_relabel kind]
    exact ih _ d
  | join part ih => exact (ih ps d).merge owner _
  | branch condition yes no ih₁ ih₂ ih₃ =>
    simp only [build]
    refine .of_eq (((ih₁ ps d).trans (ih₂ _ _)).trans (ih₃ _ _)) ?_
    simp only [made, isEmpty_outcomes_fst, isEmpty_outcomes_snd, ← falls_ends, ends_build]
  | loop condition body next ih₁ ih₂ ih₃ =>
    have hstart := (Draft.Lays.refl d).join owner ps
    simp only [build]
    apply Draft.Lays.connect
    refine .of_eq (((hstart.trans (ih₁ _ _)).trans (ih₂ _ _)).trans (lays_between _ next _ ih₃)) ?_
    simp only [made, isEmpty_extend, isEmpty_outcomes_fst, ← falls_ends, ends_build, List.nil_append]
  | doLoop body condition ih₁ ih₂ =>
    have hstart := (Draft.Lays.refl d).join owner ps
    simp only [build]
    apply Draft.Lays.connect
    refine .of_eq ((hstart.trans (ih₁ _ _)).trans (lays_between _ condition _ ih₂)) ?_
    simp only [made, isEmpty_extend, ends_build, List.nil_append]
  | leave way => cases way <;> exact .refl d
  | stop => exact (Draft.Lays.refl d).connect ps _
  | _ => exact .refl d

theorem made_sublist_visits (entered : Bool) (c : Control) : (c.made entered).Sublist c.visits := by
  induction c generalizing entered with
  | visit n => exact List.Sublist.refl _
  | seq first second ih₁ ih₂ | either first second ih₁ ih₂ => exact (ih₁ _).append (ih₂ _)
  | label kind part ih => exact ih _
  | join part ih => exact ih _
  | branch condition yes no ih₁ ih₂ ih₃ => exact ((ih₁ _).append (ih₂ _)).append (ih₃ _)
  | loop condition body next ih₁ ih₂ ih₃ =>
    refine ((ih₁ _).append (ih₂ _)).append ?_
    split
    · exact ih₃ _
    · exact List.nil_sublist _
  | doLoop body condition ih₁ ih₂ =>
    refine (ih₁ _).append ?_
    split
    · exact ih₂ _
    · exact List.nil_sublist _
  | _ => exact List.nil_sublist _

end Control

namespace Arena

variable {a : Arena} {n c : NodeId} {roles roles₁ roles₂ : List String} {v v₁ v₂ : List NodeId}

structure Stays (a : Arena) (n : NodeId) (v : List NodeId) : Prop where
  nodup : v.Nodup
  below : ∀ m ∈ v, a.Below n m

structure Spans (a : Arena) (n : NodeId) (roles : List String) (v : List NodeId) : Prop where
  nodup : v.Nodup
  below : ∀ m ∈ v, ∃ r, a.parent? r = some n ∧ a.role r ∈ roles ∧ a.Below r m

namespace Spans

theorem nil : a.Spans n roles [] where
  nodup := List.nodup_nil
  below m hm := by simp at hm

theorem append (h₁ : a.Spans n roles₁ v₁) (h₂ : a.Spans n roles₂ v₂)
    (hd : ∀ r ∈ roles₁, r ∉ roles₂) : a.Spans n (roles₁ ++ roles₂) (v₁ ++ v₂) where
  nodup := by
    apply h₁.nodup.append h₂.nodup
    intro m hm₁ hm₂
    obtain ⟨r₁, hp₁, hr₁, hb₁⟩ := h₁.below m hm₁
    obtain ⟨r₂, hp₂, hr₂, hb₂⟩ := h₂.below m hm₂
    obtain rfl := Below.unique hb₁ hb₂ hp₁ hp₂
    exact hd _ hr₁ hr₂
  below m hm := by
    rcases List.mem_append.1 hm with hm | hm
    · obtain ⟨r, hp, hr, hb⟩ := h₁.below m hm
      exact ⟨r, hp, List.mem_append_left _ hr, hb⟩
    · obtain ⟨r, hp, hr, hb⟩ := h₂.below m hm
      exact ⟨r, hp, List.mem_append_right _ hr, hb⟩

theorem flatMap {cs : List NodeId} {f : NodeId → List NodeId} (hcs : cs.Nodup)
    (hc : ∀ c ∈ cs, a.parent? c = some n ∧ a.role c ∈ roles ∧ a.Stays c (f c)) :
    a.Spans n roles (cs.flatMap f) where
  nodup := by
    rw [List.nodup_flatMap]
    refine ⟨fun c hmem => (hc c hmem).2.2.nodup, ?_⟩
    apply List.Pairwise.imp_of_mem _ hcs
    intro c c' hmem hmem' hne m hm hm'
    obtain ⟨hp, -, hs⟩ := hc c hmem
    obtain ⟨hp', -, hs'⟩ := hc c' hmem'
    exact hne (Below.unique (hs.below m hm) (hs'.below m hm') hp hp')
  below m hm := by
    obtain ⟨c, hmem, hm⟩ := List.mem_flatMap.1 hm
    obtain ⟨hp, hr, hs⟩ := hc c hmem
    exact ⟨c, hp, hr, hs.below m hm⟩

theorem child (hp : a.parent? c = some n) (hr : a.role c ∈ roles) (h : a.Stays c v) : a.Spans n roles v where
  nodup := h.nodup
  below m hm := ⟨c, hp, hr, h.below m hm⟩

theorem not_mem (h : a.Spans n roles v) : n ∉ v := by
  intro hn
  obtain ⟨r, hp, -, hb⟩ := h.below n hn
  exact Nat.not_lt_of_le (Below.le hb) (a.lt_of_parent? hp)

theorem below_node (h : a.Spans n roles v) {m : NodeId} (hm : m ∈ v) : a.Below n m := by
  obtain ⟨r, hp, -, hb⟩ := h.below m hm
  exact .head hp hb

theorem stays (h : a.Spans n roles v) : a.Stays n v where
  nodup := h.nodup
  below _ hm := h.below_node hm

theorem stays_first (h : a.Spans n roles v) : a.Stays n (n :: v) where
  nodup := List.nodup_cons.2 ⟨h.not_mem, h.nodup⟩
  below m hm := by
    rcases List.mem_cons.1 hm with rfl | hm
    · exact .refl
    · exact h.below_node hm

theorem stays_last (h : a.Spans n roles v) : a.Stays n (v ++ [n]) where
  nodup := by
    apply h.nodup.append (List.nodup_singleton n)
    rw [List.disjoint_singleton]
    exact h.not_mem
  below m hm := by
    rcases List.mem_append.1 hm with hm | hm
    · exact h.below_node hm
    · rw [List.mem_singleton.1 hm]

end Spans

theorem spans_partControl (h : ∀ c, n < c → c < a.size → a.Stays c (a.expressionControl c).visits)
    (role : String) : a.Spans n [role] (a.partControl n role).visits := by
  unfold partControl
  split
  · exact .nil
  · next c hc =>
    obtain ⟨hp, hr⟩ := parent?_of_child? hc
    obtain ⟨hlt, hsize⟩ := a.lt_of_child? hc
    exact .child hp (by simp [hr]) (h c hlt hsize)

theorem spans_operands (h : ∀ c, n < c → c < a.size → a.Stays c (a.expressionControl c).visits) :
    a.Spans n ((a.operands n).map a.role)
      (Control.all ((a.operands n).map a.expressionControl)).visits := by
  rw [Control.visits_all, List.flatMap_map]
  apply Spans.flatMap (a.nodup_operands n)
  intro c hc
  obtain ⟨hlt, hsize⟩ := a.lt_of_mem_operands hc
  exact ⟨parent?_of_mem_operands hc, List.mem_map_of_mem hc, h c hlt hsize⟩

theorem stays_expressionControl (a : Arena) (n : NodeId) : a.Stays n (a.expressionControl n).visits := by
  induction n using a.induction_behind with
  | step n ih =>
    have hoperands := spans_operands ih
    have hleft := spans_partControl ih "leftExpression"
    have hright := spans_partControl ih "rightExpression"
    have hcondition := spans_partControl ih "condition"
    have hyes := spans_partControl ih "trueExpression"
    have hno := spans_partControl ih "falseExpression"
    rw [expressionControl_eq]
    split
    · split
      · simpa [Control.visits] using (hleft.append hright (by decide)).stays_last
      · simpa [Control.visits] using (hleft.append hright (by decide)).stays_last
      · exact hoperands.stays_last
    · exact ((hcondition.append hyes (by decide)).append hno (by decide)).stays_last
    · exact hoperands.stays_last

theorem spans_part (a : Arena) (n : NodeId) (role : String) : a.Spans n [role] (a.partControl n role).visits :=
  spans_partControl (fun c _ _ => a.stays_expressionControl c) role

section Statement

variable (h : ∀ c, n < c → c < a.size → ∀ inLoop, a.Stays c (a.statementControl inLoop c).visits)

include h

theorem spans_bodyPart (inLoop : Bool) (role : String) : a.Spans n [role] (a.bodyPart inLoop n role).visits := by
  unfold bodyPart
  split
  · exact .nil
  · next c hc =>
    obtain ⟨hp, hr⟩ := parent?_of_child? hc
    obtain ⟨hlt, hsize⟩ := a.lt_of_child? hc
    exact .child hp (by simp [hr]) (h c hlt hsize inLoop)

theorem spans_statements (inLoop : Bool) :
    a.Spans n ["statements"]
      (Control.all ((a.items n "statements").map (a.statementControl inLoop))).visits := by
  rw [Control.visits_all, List.flatMap_map]
  apply Spans.flatMap (a.nodup_items n "statements")
  intro c hc
  obtain ⟨hp, hr⟩ := parent?_of_mem_items hc
  obtain ⟨hlt, hsize⟩ := a.lt_of_mem_items hc
  exact ⟨hp, by simp [hr], h c hlt hsize inLoop⟩

theorem spans_clauses (inLoop : Bool) : a.Spans n ["clauses"] (Control.anyOf (a.clauseControls inLoop n)).visits := by
  have hvisits : (Control.anyOf (a.clauseControls inLoop n)).visits
      = (a.items n "clauses").flatMap fun c => c :: (a.bodyPart inLoop c "block").visits := by
    rw [Control.visits_anyOf]
    unfold clauseControls items
    generalize (a.entries n "clauses") = entries
    generalize 0 = k
    induction entries generalizing k with
    | nil => rfl
    | cons e entries ih =>
      cases e with
      | none => simpa using ih (k + 1)
      | some c => simp [clauseControl, Control.visits, ih (k + 1)]
  rw [hvisits]
  apply Spans.flatMap (a.nodup_items n "clauses")
  intro c hc
  obtain ⟨hp, hr⟩ := parent?_of_mem_items hc
  obtain ⟨hlt, hsize⟩ := a.lt_of_mem_items hc
  refine ⟨hp, by simp [hr], ?_⟩
  apply (spans_bodyPart (fun b hb hsize' => h b (Nat.lt_trans hlt hb) hsize') inLoop
    "block").stays_first

end Statement

theorem stays_statementControl (a : Arena) (inLoop : Bool) (n : NodeId) :
    a.Stays n (a.statementControl inLoop n).visits := by
  induction n using a.induction_behind generalizing inLoop with
  | step n ih =>
    have hpart := a.spans_part n
    have hbody := spans_bodyPart ih
    have hclauses := spans_clauses ih inLoop
    have hloop := (hbody inLoop "initializationExpression").append (((hpart "condition").append
      (hbody true "body") (by decide)).append (hbody inLoop "loopExpression") (by decide)) (by decide)
    have hnone : a.Spans n [] [] := .nil
    have halone := hnone.stays_first
    rw [statementControl_eq]
    split
    · exact (spans_statements ih inLoop).stays
    · exact (spans_statements ih inLoop).stays
    · exact (((hpart "condition").append (hbody inLoop "trueBody") (by decide)).append
        (hbody inLoop "falseBody") (by decide)).stays_first
    · exact hloop.stays_first
    · exact hloop.stays_first
    · exact ((hbody true "body").append (hpart "condition") (by decide)).stays_first
    · split
      · exact ((hpart "externalCall").append hnone (by decide)).stays_first
      · exact ((hpart "externalCall").append hclauses (by decide)).stays_first
    · exact (hpart "expression").stays_last
    · exact (hpart "errorCall").stays_last
    · exact (hpart "errorCall").stays_last
    · cases inLoop <;> exact halone
    · cases inLoop <;> exact halone
    · exact halone
    · split
      · exact (hpart "expression").stays_last
      · exact (hpart "expression").stays_last
    · exact (hpart "initialValue").stays_last
    · exact (hpart "eventCall").stays_last
    · exact halone

end Arena

namespace ControlGraph

variable {g : ControlGraph} {i j : Nat} {n : NodeId}

theorem filterMap_ofLayers (callable : CallableId) (body : Control) :
    (ofLayers callable [] body).points.toList.filterMap (·.kind.node?) = body.made true := by
  obtain ⟨made, hpoints, hmade⟩ := (Control.lays_build callable body [(Draft.entry, .normal)]
    (.start callable)).connect
      (Layer.runAll [⟨callable, body⟩] [(Draft.entry, .normal)] (.start callable)).1 Draft.exit
  have hall : (ofLayers callable [] body).points.toList = (Draft.start callable).points.toList ++ made := hpoints
  rw [hall, List.filterMap_append, hmade]
  rfl

theorem eq_of_node?_eq (callable : CallableId) (a : Arena) (body : Option NodeId)
    (hi : (ofLayers callable [] (a.bodyControl body)).node? i = some n)
    (hj : (ofLayers callable [] (a.bodyControl body)).node? j = some n) : i = j := by
  have hnodup : (a.bodyControl body).visits.Nodup := by
    cases body with
    | none => exact List.nodup_nil
    | some m => exact (a.stays_statementControl false m).nodup
  have hall := hnodup.sublist (Control.made_sublist_visits true (a.bodyControl body))
  rw [← filterMap_ofLayers callable] at hall
  obtain ⟨p, hp, hpn⟩ := Draft.getElem?_of_node? hi
  obtain ⟨q, hq, hqn⟩ := Draft.getElem?_of_node? hj
  rw [List.Nodup, List.pairwise_filterMap, List.pairwise_iff_getElem] at hall
  obtain ⟨hilt, rfl⟩ := List.getElem?_eq_some_iff.1 hp
  obtain ⟨hjlt, rfl⟩ := List.getElem?_eq_some_iff.1 hq
  rcases Nat.lt_trichotomy i j with hlt | heq | hlt
  · exact absurd rfl (hall i j hilt hjlt hlt n hpn n hqn)
  · exact heq
  · exact absurd rfl (hall j i hjlt hilt hlt n hqn n hpn)

end ControlGraph

end ContractFlow
