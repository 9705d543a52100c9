import ContractFlow.Proofs.Control.Operand
import ContractFlow.Proofs.Control.Program

/-! This module shows what runs come to before an expression: its operands, and then only nodes below it. -/

namespace ContractFlow

namespace Control

variable {l : Language NodeId} {b c k first second condition yes no body next : Control}

def Within (l : Language NodeId) (c : Control) : Prop :=
  c.traces ≤ fun _ => l

section Monoid

-- the language is closed under concatenation
variable (hone : 1 ≤ l) (hmul : l * l ≤ l)
variable {d : Behaviour}

include hone in
theorem within_only (way : Ending) : Behaviour.only way ≤ fun _ => l := by
  intro e
  unfold Behaviour.only
  split
  · exact hone
  · exact bot_le

include hmul in
theorem after_le {m : Language NodeId} (hm : m ≤ l) (hd : d ≤ fun _ => l) : d.after m ≤ fun _ => l :=
  fun e => (mul_le_mul' hm (hd e)).trans hmul

theorem early_le {d : Behaviour} (hd : d ≤ fun _ => l) : d.early ≤ fun _ => l :=
  fun e => (Behaviour.early_le e).trans (hd e)

theorem latch_le (hd : d ≤ fun _ => l) : d.latch ≤ l :=
  add_le (hd .falls) (hd .continues)

theorem caught_le (hd : d ≤ fun _ => l) : d.caught ≤ fun _ => l := by
  intro e
  cases e with
  | falls => exact hd .breaks
  | breaks | continues => exact bot_le
  | returns => exact hd .returns
  | reverts => exact hd .reverts
  | underway => exact hd .underway

theorem tested_le {free : Prop} [Decidable free] (hd : d ≤ fun _ => l) : d.tested free ≤ fun _ => l := by
  intro e
  cases e with
  | falls =>
    show (if free then d .falls else 0) ≤ l
    split
    · exact hd .falls
    · exact bot_le
  | reverts => exact hd .reverts
  | underway => exact hd .underway
  | _ => exact bot_le

namespace Within

include hmul

theorem seq (h₁ : first.Within l) (h₂ : second.Within l) : (Control.seq first second).Within l :=
  fun e => add_le (early_le h₁ e) (after_le hmul (h₁ .falls) h₂ e)

theorem branch (h₁ : condition.Within l) (h₂ : yes.Within l) (h₃ : no.Within l) :
    (Control.branch condition yes no).Within l := by
  refine fun e => add_le (early_le h₁ e) (after_le hmul (h₁ .falls) (fun e => add_le (h₂ e) ?_) e)
  split
  · exact h₃ e
  · exact bot_le

theorem loop (h₁ : condition.Within l) (h₂ : body.Within l) (h₃ : next.Within l) :
    (Control.loop condition body next).Within l := by
  have hnext : next.traces.early.after body.traces.latch ≤ fun _ => l :=
    after_le hmul (latch_le h₂) (early_le h₃)
  have hround : condition.traces .falls * body.traces.latch * next.traces .falls ≤ l :=
    (mul_le_mul' ((mul_le_mul' (h₁ .falls) (latch_le h₂)).trans hmul) (h₃ .falls)).trans hmul
  refine Behaviour.after_kstar_le (fun e => add_le (tested_le h₁ e) ?_) (after_le hmul hround le_rfl)
  exact after_le hmul (h₁ .falls) (fun e => add_le (caught_le h₂ e) (hnext e)) e

theorem doLoop (h₁ : body.Within l) (h₂ : condition.Within l) : (Control.doLoop body condition).Within l := by
  have hround : body.traces.latch * condition.traces .falls ≤ l :=
    (mul_le_mul' (latch_le h₁) (h₂ .falls)).trans hmul
  refine Behaviour.after_kstar_le (fun e => add_le (caught_le h₁ e) ?_) (after_le hmul hround le_rfl)
  exact after_le hmul (latch_le h₁) (tested_le h₂) e

end Within

include hone hmul

theorem within_of_visits (h : ∀ n ∈ c.visits, [n] ∈ l) : c.Within l := by
  induction c with
  | visit n =>
    have hn : ({[n]} : Language NodeId) ≤ l := Set.singleton_subset_iff.2 (h n (List.mem_singleton_self n))
    intro e
    cases e with
    | falls => exact hn
    | underway => exact add_le hone hn
    | _ => exact bot_le
  | seq first second ih₁ ih₂ =>
    obtain ⟨h₁, h₂⟩ := List.forall_mem_append.1 h
    exact (ih₁ h₁).seq hmul (ih₂ h₂)
  | either first second ih₁ ih₂ =>
    obtain ⟨h₁, h₂⟩ := List.forall_mem_append.1 h
    exact fun e => add_le (ih₁ h₁ e) (ih₂ h₂ e)
  | label kind part ih => exact ih h
  | join part ih => exact ih h
  | branch condition yes no ih₁ ih₂ ih₃ =>
    obtain ⟨h₁₂, h₃⟩ := List.forall_mem_append.1 h
    obtain ⟨h₁, h₂⟩ := List.forall_mem_append.1 h₁₂
    exact (ih₁ h₁).branch hmul (ih₂ h₂) (ih₃ h₃)
  | loop condition body next ih₁ ih₂ ih₃ =>
    obtain ⟨h₁₂, h₃⟩ := List.forall_mem_append.1 h
    obtain ⟨h₁, h₂⟩ := List.forall_mem_append.1 h₁₂
    exact (ih₁ h₁).loop hmul (ih₂ h₂) (ih₃ h₃)
  | doLoop body condition ih₁ ih₂ =>
    obtain ⟨h₁, h₂⟩ := List.forall_mem_append.1 h
    exact (ih₁ h₁).doLoop hmul (ih₂ h₂)
  | _ => exact within_only hone _

omit hone hmul

structure Apart (k : Control) (l : Language NodeId) (v : List NodeId) : Prop where
  nodup : v.Nodup
  other : ∀ n ∈ v, n ∉ k.visits → [n] ∈ l

namespace Apart

variable {v w : List NodeId} (h : Apart k l (v ++ w))

include h

theorem left : Apart k l v :=
  ⟨h.nodup.of_append_left, fun n hn => h.other n (List.mem_append_left _ hn)⟩

theorem right : Apart k l w :=
  ⟨h.nodup.of_append_right, fun n hn => h.other n (List.mem_append_right _ hn)⟩

theorem behind (hk : ∀ n ∈ k.visits, n ∈ v) : ∀ n ∈ w, [n] ∈ l :=
  fun n hn => h.right.other n hn fun hmem => not_mem_right h.nodup (hk n hmem) hn

theorem before (hk : ∀ n ∈ k.visits, n ∈ w) : ∀ n ∈ v, [n] ∈ l :=
  fun n hn => h.left.other n hn fun hmem => not_mem_left h.nodup (hk n hmem) hn

end Apart

include hone hmul

theorem IsPart.within (h : k.IsPart b) (hk : k.Within l) (hb : Apart k l b.visits) : b.Within l := by
  have hother {c : Control} := within_of_visits (c := c) hone hmul
  induction h with
  | refl => exact hk
  | first h ih => exact (ih hb.left).seq hmul (hother (hb.behind fun _ => h.visits))
  | second h ih => exact (hother (hb.before fun _ => h.visits)).seq hmul (ih hb.right)
  | left h ih =>
    have hright := hother (hb.behind fun _ => h.visits)
    exact fun e => add_le (ih hb.left e) (hright e)
  | right h ih =>
    have hleft := hother (hb.before fun _ => h.visits)
    exact fun e => add_le (hleft e) (ih hb.right e)
  | label _ ih | join _ ih => exact ih hb
  | condition h ih =>
    have hyes := hother (hb.left.behind fun _ => h.visits)
    exact (ih hb.left.left).branch hmul hyes (hother (hb.behind fun _ hn => List.mem_append_left _ (h.visits hn)))
  | yes h ih =>
    have hcondition := hother (hb.left.before fun _ => h.visits)
    exact hcondition.branch hmul (ih hb.left.right)
      (hother (hb.behind fun _ hn => List.mem_append_right _ (h.visits hn)))
  | no h ih =>
    obtain ⟨hcondition, hyes⟩ := List.forall_mem_append.1 (hb.before fun _ => h.visits)
    exact (hother hcondition).branch hmul (hother hyes) (ih hb.right)
  | test h ih =>
    have hbody := hother (hb.left.behind fun _ => h.visits)
    exact (ih hb.left.left).loop hmul hbody (hother (hb.behind fun _ hn => List.mem_append_left _ (h.visits hn)))
  | body h ih =>
    have hcondition := hother (hb.left.before fun _ => h.visits)
    exact hcondition.loop hmul (ih hb.left.right)
      (hother (hb.behind fun _ hn => List.mem_append_right _ (h.visits hn)))
  | next h ih =>
    obtain ⟨hcondition, hbody⟩ := List.forall_mem_append.1 (hb.before fun _ => h.visits)
    exact (hother hcondition).loop hmul (hother hbody) (ih hb.right)
  | doBody h ih => exact (ih hb.left).doLoop hmul (hother (hb.behind fun _ => h.visits))
  | doTest h ih => exact (hother (hb.before fun _ => h.visits)).doLoop hmul (ih hb.right)

end Monoid

theorem mem_visits_of_mem_traces {e : Ending} {w : List NodeId} {n : NodeId} (hw : w ∈ c.traces e) (hn : n ∈ w) :
    n ∈ c.visits := by
  let l : Language NodeId := {w | ∀ n ∈ w, n ∈ c.visits}
  have hone : 1 ≤ l := Set.singleton_subset_iff.2 fun n hn => absurd hn List.not_mem_nil
  have hmul : l * l ≤ l := by
    rintro w ⟨u, hu, v, hv, rfl⟩
    exact List.forall_mem_append.2 ⟨hu, hv⟩
  have hsingle : ∀ n ∈ c.visits, [n] ∈ l := by
    intro n hn m hm
    rwa [List.mem_singleton.1 hm]
  exact within_of_visits hone hmul hsingle e hw n hn

theorem exists_of_mem_traces_all {cs : List Control} {w : List NodeId} (hc : c ∈ cs)
    (hw : w ∈ (all cs).traces .falls) : ∃ w' ∈ c.traces .falls, ∀ n ∈ w', n ∈ w := by
  induction cs generalizing w with
  | nil => simp at hc
  | cons c' cs ih =>
    change w ∈ c'.traces.seq (all cs).traces .falls at hw
    rw [Behaviour.seq_falls] at hw
    obtain ⟨u, hu, v, hv, rfl⟩ := hw
    rcases List.mem_cons.1 hc with rfl | hc
    · exact ⟨u, hu, fun n hn => List.mem_append_left _ hn⟩
    · obtain ⟨w', hw', hsub⟩ := ih hc hv
      exact ⟨w', hw', fun n hn => List.mem_append_right _ (hsub n hn)⟩

end Control

namespace Arena

variable {a : Arena} {n m c : NodeId} {e : Ending} {w : List NodeId}

theorem below_of_mem_traces (hw : w ∈ (a.expressionControl n).traces e) (hm : m ∈ w) : a.Below n m :=
  (a.stays_expressionControl n).below m (Control.mem_visits_of_mem_traces hw hm)

def Guarded (a : Arena) (c n : NodeId) : Language NodeId :=
  {w | ∀ front back, w = front ++ n :: back →
    ∃ before between, front = before ++ c :: between ∧ ∀ m ∈ between, a.Below n m}

theorem one_le_guarded (a : Arena) (c n : NodeId) : 1 ≤ a.Guarded c n := by
  refine Set.singleton_subset_iff.2 fun front back h => ?_
  simp at h

theorem mul_guarded_le (a : Arena) (c n : NodeId) : a.Guarded c n * a.Guarded c n ≤ a.Guarded c n := by
  rintro _ ⟨u, hu, v, hv, rfl⟩ front back h
  rcases List.append_eq_append_iff.1 h with ⟨t, rfl, ht⟩ | ⟨t, rfl, ht⟩
  · obtain ⟨before, between, rfl, hbelow⟩ := hv t back ht
    exact ⟨u ++ before, between, by simp, hbelow⟩
  · cases t with
    | nil =>
      obtain ⟨before, between, hnil, -⟩ := hv [] back ht.symm
      simp at hnil
    | cons m t =>
      obtain ⟨rfl, rfl⟩ := List.cons.inj ht
      exact hu front t rfl

theorem singleton_mem_guarded (hne : m ≠ n) : [m] ∈ a.Guarded c n := by
  intro front back h
  have hn : n ∈ [m] := h ▸ List.mem_append_right _ List.mem_cons_self
  exact absurd (List.mem_singleton.1 hn).symm hne

theorem within_guarded
    (hwhole : a.expressionControl n = .seq (.all ((a.operands n).map a.expressionControl)) (.visit n))
    (hvisited : ∀ w ∈ (Control.all ((a.operands n).map a.expressionControl)).traces .falls, c ∈ w) :
    (a.expressionControl n).Within (a.Guarded c n) := by
  have hnodup := (a.stays_expressionControl n).nodup
  rw [hwhole] at hnodup
  have hapart {e : Ending} {u : List NodeId}
      (hu : u ∈ (Control.all ((a.operands n).map a.expressionControl)).traces e) : n ∉ u := fun hn =>
    Control.not_mem_left hnodup (List.mem_singleton_self n) (Control.mem_visits_of_mem_traces hu hn)
  intro e w hw front back heq
  have hbelow : ∀ m ∈ front, a.Below n m := fun m hm =>
    below_of_mem_traces hw (heq ▸ List.mem_append_left _ hm)
  have hc : c ∈ front := by
    rw [hwhole] at hw
    rcases Behaviour.mem_seq_iff.1 hw with ⟨-, hw⟩ | ⟨u, hu, v, -, rfl⟩
    · exact absurd (heq ▸ List.mem_append_right _ List.mem_cons_self) (hapart hw)
    · rcases List.append_eq_append_iff.1 heq with ⟨t, rfl, -⟩ | ⟨t, rfl, ht⟩
      · exact List.mem_append_left _ (hvisited u hu)
      · cases t with
        | nil => simpa using hvisited _ hu
        | cons m t =>
          obtain ⟨rfl, -⟩ := List.cons.inj ht
          exact absurd (List.mem_append_right _ List.mem_cons_self) (hapart hu)
  obtain ⟨before, between, rfl⟩ := List.append_of_mem hc
  exact ⟨before, between, rfl, fun m hm => hbelow m (List.mem_append_right _ (List.mem_cons_of_mem _ hm))⟩

def basedKinds : List Kind :=
  [.indexAccess, .indexRangeAccess, .memberAccess, .tupleExpression, .assignment]

structure IsBase (a : Arena) (n c : NodeId) : Prop where
  kind : a.kind n ∈ basedKinds
  operand : c ∈ a.operands n
  role : a.role c ∈ ["baseExpression", "expression", "components", "leftHandSide"]

namespace IsBase

theorem parent? (h : a.IsBase n c) : a.parent? c = some n :=
  parent?_of_mem_operands h.operand

theorem expressionControl_eq (h : a.IsBase n c) :
    a.expressionControl n = .seq (.all ((a.operands n).map a.expressionControl)) (.visit n) := by
  have hkind := h.kind
  rw [Arena.expressionControl_eq]
  split
  · next heq => simp [heq, basedKinds] at hkind
  · next heq => simp [heq, basedKinds] at hkind
  · rfl

theorem statementControl_eq (h : a.IsBase n c) (inLoop : Bool) : a.statementControl inLoop n = .visit n := by
  have hkind := h.kind
  simp only [basedKinds, List.mem_cons, List.not_mem_nil, or_false] at hkind
  rw [Arena.statementControl_eq]
  rcases hkind with hkind | hkind | hkind | hkind | hkind
  all_goals rw [hkind]

theorem isPart {q : NodeId} {k : Control} (h : a.IsBase n c) (hk : a.IsControl q k) (hc : c ∈ k.visits) (hne : c ≠ q) :
    (a.expressionControl n).IsPart k := by
  have hrole := h.role
  have hother : a.role c ≠ "clauses" ∧ a.role c ≠ "block" := by
    constructor
    · intro heq
      simp [heq] at hrole
    · intro heq
      simp [heq] at hrole
  obtain ⟨k', hcontrol, hmem, hpart⟩ := hk.exists_parent (fun _ _ _ => hother) hc hne h.parent?
  cases hcontrol with
  | expression => exact hpart
  | statement inLoop =>
    rw [h.statementControl_eq, Control.visits, List.mem_singleton] at hmem
    exact absurd hmem (Nat.ne_of_gt (a.lt_of_parent? h.parent?))

end IsBase

theorem mem_visits_of_bases {q : NodeId} {k : Control} (h : Relation.ReflTransGen a.IsBase n c) (hk : a.IsControl q k)
    (hlt : q < n) (hc : c ∈ k.visits) : n ∈ k.visits := by
  induction h using Relation.ReflTransGen.head_induction_on with
  | refl => exact hc
  | @head n b hbase _ ih =>
    have hnb : n < b := a.lt_of_parent? hbase.parent?
    have hpart := hbase.isPart hk (ih (Nat.lt_trans hlt hnb)) (Nat.ne_of_gt (Nat.lt_trans hlt hnb))
    exact hpart.visits (a.finishes_expressionControl n).mem_visits

theorem mem_of_mem_traces_falls (hw : w ∈ (a.expressionControl n).traces .falls) : n ∈ w := by
  have hlast {first : Control} {w : List NodeId} (hw : w ∈ (Control.seq first (.visit n)).traces .falls) : n ∈ w := by
    change w ∈ first.traces.seq (.visit n) .falls at hw
    rw [Behaviour.seq_falls] at hw
    obtain ⟨u, -, v, rfl, rfl⟩ := hw
    exact List.mem_append_right _ (List.mem_singleton_self n)
  have hshort {first second : Control} {w : List NodeId}
      (hw : w ∈ (Control.seq first (.seq second (.visit n))).traces .falls) : n ∈ w := by
    change w ∈ first.traces.seq (Control.seq second (.visit n)).traces .falls at hw
    rw [Behaviour.seq_falls] at hw
    obtain ⟨u, -, v, hv, rfl⟩ := hw
    exact List.mem_append_right _ (hlast hv)
  rw [expressionControl_eq] at hw
  split at hw
  · split at hw
    · exact hshort hw
    · exact hshort hw
    · exact hlast hw
  · exact hlast hw
  · exact hlast hw

theorem mem_of_bases (h : Relation.ReflTransGen a.IsBase n c) (hw : w ∈ (a.expressionControl n).traces .falls) :
    c ∈ w := by
  induction h using Relation.ReflTransGen.head_induction_on generalizing w with
  | refl => exact mem_of_mem_traces_falls hw
  | @head n b hbase _ ih =>
    rw [hbase.expressionControl_eq] at hw
    change w ∈ (Control.all _).traces.seq (.visit n) .falls at hw
    rw [Behaviour.seq_falls] at hw
    obtain ⟨u, hu, v, -, rfl⟩ := hw
    obtain ⟨w', hw', hsub⟩ := Control.exists_of_mem_traces_all (List.mem_map_of_mem hbase.operand) hu
    exact List.mem_append_left _ (hsub c (ih hw'))

end Arena

namespace ControlGraph

variable {callable : CallableId} {body : Control} {a : Arena} {n c : NodeId} {front : List Nat} {i j : Nat}

theorem Run.exists_before (hrun : (ofLayers callable [] body).Run (front ++ [j]) i)
    (hj : (ofLayers callable [] body).node? j = some n) (hpart : (a.expressionControl n).IsPart body)
    (hnodup : body.visits.Nodup) (hguarded : (a.expressionControl n).Within (a.Guarded c n)) :
    ∃ before k between, front = before ++ k :: between ∧ (ofLayers callable [] body).node? k = some c ∧
      ∀ m ∈ (ofLayers callable [] body).trace between, a.Below n m := by
  have hmem : n ∈ (a.expressionControl n).visits := (a.finishes_expressionControl n).mem_visits
  have hbody : body.Within (a.Guarded c n) := by
    refine hpart.within (a.one_le_guarded c n) (a.mul_guarded_le c n) hguarded ⟨hnodup, fun m _ hm => ?_⟩
    exact Arena.singleton_mem_guarded fun heq => hm (heq ▸ hmem)
  have htrace := hbody .underway ((runs_iff callable body).1 ⟨_, i, hrun, rfl⟩)
  have hlast : (ofLayers callable [] body).trace [j] = [n] := by simp [trace, hj]
  obtain ⟨before, between, heq, hbelow⟩ := htrace _ [] ((trace_append _ front [j]).trans (by rw [hlast]))
  obtain ⟨before, k, between, rfl, hk, -, rfl⟩ := exists_of_trace_eq heq
  exact ⟨before, k, between, rfl, hk, hbelow⟩

end ControlGraph

namespace ControlFlow

variable {c : ControlFlow} {f : CallableId} {g : ControlGraph} {n b e : NodeId} {front : List Nat} {i j k : Nat}
  (hg : (c.controlGraph? false f).outcome = .ok (some g))

include hg

theorem exists_body (hk : g.node? k = some n) : ∃ body, (c.callableD f).body = some body ∧
    n ∈ (c.arena.statementControl false body).visits ∧ c.control f = c.arena.statementControl false body := by
  rw [eq_of_controlGraph? hg] at hk
  have hmem := ControlGraph.mem_visits_of_node? hk
  unfold Lineage.control at hmem ⊢
  unfold Arena.bodyControl at hmem ⊢
  cases hbody : (c.callableD f).body with
  | none =>
    rw [hbody] at hmem
    simp [Control.visits] at hmem
  | some body =>
    rw [hbody] at hmem
    exact ⟨body, rfl, hmem, rfl⟩

theorem exists_base_before (hbase : c.arena.IsBase n b) (hpath : Relation.ReflTransGen c.arena.IsBase b e)
    (hi : g.node? i = some e) (hj : g.node? j = some n) (hrun : g.Run (front ++ [j]) j) :
    ∃ before between, front = before ++ i :: between ∧ ∀ m ∈ g.trace between, c.arena.Below n m := by
  obtain ⟨body, hbody, he, hcontrol⟩ := exists_body hg hi
  obtain ⟨_, hbody', hn, -⟩ := exists_body hg hj
  obtain rfl := Option.some.inj (hbody.symm.trans hbody')
  have hstays := c.arena.stays_statementControl false body
  have hlt : body < b := Nat.lt_of_le_of_lt (Arena.Below.le (hstays.below n hn)) (c.arena.lt_of_parent? hbase.parent?)
  have hb := Arena.mem_visits_of_bases hpath (.statement false) hlt he
  have hpart := hbase.isPart (.statement false) hb (Nat.ne_of_gt hlt)
  have hguarded : (c.arena.expressionControl n).Within (c.arena.Guarded e n) := by
    refine Arena.within_guarded hbase.expressionControl_eq fun w hw => ?_
    obtain ⟨w', hw', hsub⟩ := Control.exists_of_mem_traces_all (List.mem_map_of_mem hbase.operand) hw
    exact hsub e (Arena.mem_of_bases hpath hw')
  have hone := fun k hk => point_unique hg (i := k) (j := i) hk hi
  have heq := eq_of_controlGraph? hg
  rw [hcontrol] at heq
  subst heq
  obtain ⟨before, k, between, rfl, hk, hbelow⟩ := hrun.exists_before hj hpart hstays.nodup hguarded
  obtain rfl := hone k hk
  exact ⟨before, between, rfl, hbelow⟩

end ControlFlow

end ContractFlow
