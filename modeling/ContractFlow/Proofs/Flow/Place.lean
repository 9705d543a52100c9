import ContractFlow.Proofs.Flow.Rule
import ContractFlow.Proofs.Flow.Search
import ContractFlow.Proofs.Flow.Step
import Mathlib.Data.Finite.Prod
import Mathlib.Data.Int.Interval
import Mathlib.Order.Filter.AtTopBot.Basic
import Mathlib.Order.Filter.Finite
import Mathlib.Order.Interval.Finset.Nat

/-! This module shows that values flow between finitely many nodes. -/

namespace ContractFlow

namespace Arena

variable {a : Arena} {n r : NodeId}

theorem callSiteOf?_lt (h : a.callSiteOf? n = some r) : r < n := by
  fun_induction callSiteOf? a n with
  | case3 n p hp hlt _ _ ih => exact Nat.lt_trans (ih h) hlt
  | case4 n p hp hlt => exact Option.some.inj h ▸ hlt
  | _ => simp at h

end Arena

namespace FlowModel

variable {m : FlowModel} {b : Nat}

def IsPlace (m : FlowModel) (b : Nat) : FlowNode → Prop
  | .expression n => n < b
  | .parameter f i | .definition f i => f < m.callables.size ∧ i < b
  | .result f i => f < m.callables.size ∧ i.natAbs < b
  | .callResult n i | .argument n i => n < b ∧ i.natAbs < b
  | .postUpdate n d | .stateRead n d | .stateWrite n d => n < b ∧ d < b

theorem finite_isPlace (m : FlowModel) (b : Nat) : {x | m.IsPlace b x}.Finite := by
  have hb : (Set.Iio b).Finite := Set.finite_Iio b
  have hf : (Set.Iio m.callables.size).Finite := Set.finite_Iio _
  have hi : {i : Int | i.natAbs < b}.Finite :=
    (Set.finite_Ioo (-(b : Int)) b).subset fun i (hi : i.natAbs < b) => by
      rw [Set.mem_Ioo]
      omega
  have hall := (hb.image FlowNode.expression).union <|
    (hf.image2 FlowNode.parameter hb).union <| (hf.image2 FlowNode.definition hb).union <|
    (hf.image2 FlowNode.result hi).union <| (hb.image2 FlowNode.callResult hi).union <|
    (hb.image2 FlowNode.argument hi).union <| (hb.image2 FlowNode.postUpdate hb).union <|
    (hb.image2 FlowNode.stateRead hb).union (hb.image2 FlowNode.stateWrite hb)
  refine hall.subset fun x hx => ?_
  cases x <;> simp_all [IsPlace]

structure Bounds (m : FlowModel) (b : Nat) : Prop where
  nodes : m.arena.size ≤ b
  gas : FlowNode.gas.natAbs < b
  roles : ∀ n < m.arena.size, (m.arena.roleIndex n).natAbs < b
  arities : ∀ f < m.callables.size, (m.callableD f).arity ≤ b
  positions : ∀ d p, m.parameterAt? d = some p → p.position < b
  results : ∀ n < m.arena.size, ∀ k, (m.resultArity n).outcome = .ok k → k ≤ b
  sites : ∀ n < m.arena.size, ∀ es, (m.edges n).outcome = .ok es → ∀ e ∈ es, e.site < b
  forms : ∀ f < m.callables.size, ∀ s, (m.form? f).outcome = .ok (some s) →
    s.definitions.size ≤ b ∧ ∀ u ∈ s.uses, u.1 < b

section Exists

open Filter

theorem eventually_of_outcome {α : Type} {q : Query α} {P : α → Nat → Prop}
    (h : ∀ a, ∀ᶠ b in atTop, P a b) : ∀ᶠ b in atTop, ∀ a, q.outcome = .ok a → P a b := by
  cases hq : q.outcome with
  | error e => exact .of_forall fun b a ha => by simp at ha
  | ok a =>
    filter_upwards [h a] with b hb a' ha'
    exact Except.ok.inj ha' ▸ hb

theorem eventually_of_list {α : Type} (xs : List α) {P : α → Nat → Prop}
    (h : ∀ x ∈ xs, ∀ᶠ b in atTop, P x b) : ∀ᶠ b in atTop, ∀ x ∈ xs, P x b :=
  (eventually_all_finite (List.finite_toSet xs)).2 h

theorem eventually_of_lt {N : Nat} {P : Nat → Nat → Prop} (h : ∀ n < N, ∀ᶠ b in atTop, P n b) :
    ∀ᶠ b in atTop, ∀ n < N, P n b :=
  (eventually_all_finite (Set.finite_Iio N)).2 h

theorem exists_of_parameterAt? {o : Outline} {d : NodeId} {p : Parameter} (h : o.parameterAt? d = some p) :
    ∃ f < o.callables.size, p ∈ (o.callableD f).parameters ++ (o.callableD f).returns := by
  obtain ⟨f, hf, hfind⟩ := List.exists_of_findSome?_eq_some h
  exact ⟨f, List.mem_range.1 (List.mem_of_mem_filter hf), List.mem_of_find?_eq_some hfind⟩

theorem exists_bounds (m : FlowModel) (k : Nat) : ∃ b, k < b ∧ m.Bounds b := by
  have hnodes := eventually_ge_atTop m.arena.size
  have hgas := eventually_gt_atTop FlowNode.gas.natAbs
  have hroles := eventually_of_lt (N := m.arena.size) fun n _ =>
    eventually_gt_atTop (m.arena.roleIndex n).natAbs
  have harities := eventually_of_lt (N := m.callables.size) fun f _ =>
    eventually_ge_atTop (m.callableD f).arity
  have hpositions := eventually_of_lt (N := m.callables.size) fun f _ =>
    eventually_of_list ((m.callableD f).parameters ++ (m.callableD f).returns) fun p _ =>
      eventually_gt_atTop p.position
  have hresults := eventually_of_lt (N := m.arena.size) fun n _ =>
    eventually_of_outcome (q := m.resultArity n) fun k => eventually_ge_atTop k
  have hsites := eventually_of_lt (N := m.arena.size) fun n _ =>
    eventually_of_outcome (q := m.edges n) fun es =>
      eventually_of_list es fun e _ => eventually_gt_atTop e.site
  have hforms := eventually_of_lt (N := m.callables.size) fun f _ =>
    eventually_of_outcome (q := m.form? f) (P := fun o b => ∀ s, o = some s →
        s.definitions.size ≤ b ∧ ∀ u ∈ s.uses, u.1 < b) fun o => by
      cases o with
      | none => exact .of_forall fun b s hs => by simp at hs
      | some s =>
        filter_upwards [eventually_ge_atTop s.definitions.size,
          eventually_of_list s.uses fun u _ => eventually_gt_atTop u.1] with b hd hu s' hs'
        exact Option.some.inj hs' ▸ ⟨hd, hu⟩
  have hall : ∀ᶠ b in atTop, m.Bounds b := by
    filter_upwards [hnodes, hgas, hroles, harities, hpositions, hresults, hsites, hforms]
      with b hnodes hgas hroles harities hpositions hresults hsites hforms
    refine ⟨hnodes, hgas, hroles, harities, fun d p hp => ?_, hresults, hsites, fun f hf s hs => ?_⟩
    · obtain ⟨f, hf, hmem⟩ := exists_of_parameterAt? hp
      exact hpositions f hf p hmem
    · exact hforms f hf _ hs s rfl
  exact ((eventually_gt_atTop k).and hall).exists

end Exists

def ArePlaces (m : FlowModel) (b : Nat) (xs : List FlowNode) : Prop :=
  ∀ x ∈ xs, m.IsPlace b x

theorem ArePlaces.nil : m.ArePlaces b [] := by
  simp [ArePlaces]

theorem parent_lt {n p : NodeId} (hp : m.arena.parent? n = some p) (hn : n < b) : p < b :=
  Nat.lt_trans (m.arena.lt_of_parent? hp) hn

section Rule

variable (h : m.Bounds b) {n site target container decl : NodeId} {f : CallableId} {s : SsaForm} {i : Int}
  {x y : FlowNode}

include h

theorem isPlace_definitionNode (hf : f < m.callables.size) (hs : (m.form? f).outcome = .ok (some s)) {d : Nat}
    (hd : d ∈ s.indices) : m.IsPlace b (definitionNode s d) := by
  have hcallable : s.graph.callable < m.callables.size := by rwa [callable_of_form? hs]
  exact ⟨hcallable, Nat.lt_of_lt_of_le (List.mem_range.1 hd) (h.forms f hf s hs).1⟩

theorem isPlace_use (hf : f < m.callables.size) (hs : (m.form? f).outcome = .ok (some s)) {d : Nat}
    {u : NodeId} (hu : u ∈ s.usesOf d) : m.IsPlace b (.expression u) := by
  obtain ⟨use, huse, rfl⟩ := List.mem_map.1 hu
  exact (h.forms f hf s hs).2 use (List.mem_of_mem_filter huse)

theorem lt_of_kind {k : Kind} (hk : m.arena.kind n = k) (hne : k ≠ default) : n < b :=
  Nat.lt_of_lt_of_le (Arena.lt_size_of_kind hk hne) h.nodes

theorem WriteAt.isPlace (hx : m.WriteAt site x) (hsite : site < b) : m.IsPlace b x := by
  cases hx with
  | state hdecl => exact ⟨hsite, Nat.lt_of_lt_of_le hdecl h.nodes⟩
  | element hroot => exact ⟨lt_of_kind h hroot (by decide), hsite⟩

theorem DefinedAt.isPlace (hx : m.DefinedAt site decl x) : m.IsPlace b x := by
  cases hx with
  | intro howner hs hd =>
    refine isPlace_definitionNode h (Program.lt_size_of_owner? howner) hs ?_
    exact List.mem_of_mem_filter (List.mem_of_find?_eq_some hd)

theorem Receives.isPlace (hx : m.Receives site target x) (hsite : site < b) : m.IsPlace b x := by
  rcases hx with ⟨decl, hx⟩ | hx
  · exact hx.isPlace h
  · exact hx.writes.writeAt.isPlace h hsite

theorem TakenAt.isPlace (hx : m.TakenAt container i x) (hcontainer : container < b) : m.IsPlace b x := by
  cases hx with
  | declared _ hx => exact hx.isPlace h
  | assigned _ _ hx => exact hx.isPlace h hcontainer
  | caught _ _ _ _ hx => exact hx.isPlace h

theorem natAbs_roleIndex_lt (n : NodeId) : (m.arena.roleIndex n).natAbs < b := by
  by_cases hn : n < m.arena.size
  · exact h.roles n hn
  · rw [Arena.roleIndex, Arena.node_of_not_lt hn]
    exact Nat.lt_trans (by decide) h.gas

theorem zero_lt : 0 < b :=
  Nat.lt_trans (by decide) h.gas

theorem LocalRule.isPlace (hrule : m.LocalRule x y) (hx : m.IsPlace b x) : m.IsPlace b y := by
  cases hrule with
  | whole hp => exact parent_lt hp hx
  | assigned hp _ _ hy => exact hy.isPlace h (parent_lt hp hx)
  | declared _ hy => exact hy.isPlace h
  | initial hp => exact ⟨parent_lt hp hx, parent_lt hp hx⟩
  | component hp _ hcontainer hy =>
    exact hy.isPlace h (parent_lt (Arena.parent?_of_container? hcontainer) (parent_lt hp hx))
  | @returned n _ f _ hp hf hi =>
    refine ⟨Program.lt_size_of_owner? hf, ?_⟩
    rcases hi with rfl | rfl
    · exact zero_lt h
    · exact natAbs_roleIndex_lt h n
  | receiver hp _ hcall =>
    exact ⟨Nat.lt_trans (Arena.callSiteOf?_lt hcall) (parent_lt hp hx), Nat.lt_trans (by decide) h.gas⟩
  | @argument n p _ hp | @held n p hp => exact ⟨parent_lt hp hx, natAbs_roleIndex_lt h n⟩
  | option hp _ hcall hi =>
    refine ⟨Nat.lt_trans (Arena.callSiteOf?_lt hcall) (parent_lt hp hx), ?_⟩
    rcases hi with rfl | rfl
    · exact Nat.lt_trans (by decide) h.gas
    · exact h.gas
  | entry hs hd => exact isPlace_definitionNode h hx.1 hs hd
  | use hs hu => exact isPlace_use h hx.1 hs hu
  | merged hs he => exact isPlace_definitionNode h hx.1 hs he
  | exit hp => exact ⟨hx.1, h.positions _ _ hp⟩
  | invoked _ _ hkind => exact lt_of_kind h hkind (by decide)
  | value | read => exact hx.1
  | taken hcontainer hy => exact hy.isPlace h (parent_lt (Arena.parent?_of_container? hcontainer) hx.1)
  | passed _ hf => exact ⟨Program.lt_size_of_owner? hf, hx.2⟩
  | later hf hs hu => exact isPlace_use h (Program.lt_size_of_owner? hf) hs hu

theorem TaintRule.isPlace (hrule : m.TaintRule x y) (hx : m.IsPlace b x) : m.IsPlace b y := by
  cases hrule with
  | whole hp => exact parent_lt hp hx
  | assigned hp _ _ hy | stepped hp _ _ hy => exact hy.isPlace h (parent_lt hp hx)
  | mixed => exact ⟨hx.1, zero_lt h⟩
  | result hkind _ _ harity hk =>
    exact ⟨hx.1, Nat.lt_of_lt_of_le hk (h.results _ (Arena.lt_size_of_kind hkind (by decide)) _ harity)⟩
  | pushed _ _ _ _ hy => exact hy.writeAt.isPlace h hx.1
  | extended _ _ _ hdecl => exact ⟨lt_of_kind h (Program.kind_of_findVariable hdecl) (by decide), hx.1⟩

theorem JumpRule.isPlace (hrule : m.JumpRule x y) (hx : m.IsPlace b x) : m.IsPlace b y := by
  cases hrule with
  | parameter hf hk => exact ⟨hf, Nat.lt_of_lt_of_le hk (h.arities _ hf)⟩
  | caller hkind hes he => exact ⟨h.sites _ (Arena.lt_size_of_kind hkind (by decide)) _ hes _ he, hx.2⟩
  | state hread => exact ⟨lt_of_kind h (Program.kind_of_stateReadOf hread) (by decide), hx.2⟩

end Rule

end FlowModel

namespace FlowGraph

variable {g : FlowGraph} {p : Policy} {mode : FlowMode} {b : Nat} {x y source : FlowNode}

structure KeepsPlaces (g : FlowGraph) (p : Policy) (b : Nat) : Prop where
  flow : ∀ x, g.IsPlace b x → (p.flowSteps x).Gives (g.ArePlaces b)
  taint : ∀ x, g.IsPlace b x → (p.taintSteps x).Gives (g.ArePlaces b)

theorem StepsTo.isPlace (h : g.Bounds b) (hp : g.KeepsPlaces p b) {change : Int}
    (hstep : g.StepsTo p mode x y change) (hx : g.IsPlace b x) : g.IsPlace b y := by
  cases hstep with
  | inside hy => exact (FlowModel.localRule_of_mem hy).isPlace h hx
  | jump hy => exact (FlowModel.jumpRule_of_mem hy).isPlace h hx
  | added hy =>
    obtain ⟨ys, hys, hy⟩ := Query.mem_getD_nil_iff.1 hy
    exact hp.flow x hx ys hys y hy
  | taint hy => exact (FlowModel.taintRule_of_mem hy).isPlace h hx
  | addedTaint hy =>
    obtain ⟨ys, hys, hy⟩ := Query.mem_getD_nil_iff.1 hy
    exact hp.taint x hx ys hys y hy

theorem finite_reachable (h : g.Bounds b) (hp : g.KeepsPlaces p b)
    (hsource : g.IsPlace b source) :
    {x | Relation.ReflTransGen (g.rules p mode).Step source x}.Finite := by
  refine (g.finite_isPlace b).subset fun x hx => ?_
  induction hx with
  | refl => exact hsource
  | @tail y z _ hstep ih =>
    obtain ⟨ys, change, hys, hmem⟩ := hstep
    exact ((mem_steps_iff hys).1 hmem).isPlace h hp ih

end FlowGraph

end ContractFlow
