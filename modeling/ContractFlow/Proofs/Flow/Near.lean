import ContractFlow.Proofs.Call.Edge
import ContractFlow.Proofs.Flow.Escape

/-! This module shows how far a value goes by a step inside a callable or by one that only taint follows. -/

namespace ContractFlow

open Outcome (bind_eq_ok pure_eq_ok)

namespace Arena

/-- Whether an expression compares values, combines truth values or deletes. -/
def isComparison (a : Arena) (n : NodeId) : Bool :=
  match a.kind n with
  | .binaryOperation => (a.text n).isOneOf ["==", "!=", "<", "<=", ">", ">=", "&&", "||"]
  | .unaryOperation => (a.text n).isOneOf ["!", "delete"]
  | _ => false

def Joined (a : Arena) : NodeId → NodeId → Prop :=
  Relation.EqvGen fun n p => a.parent? n = some p ∧ a.isCallableDefinition n = false

variable {a : Arena} {n p q c root call : NodeId}

namespace Joined

theorem refl (n : NodeId) : a.Joined n n :=
  Relation.EqvGen.refl n

theorem symm (h : a.Joined n p) : a.Joined p n :=
  Relation.EqvGen.symm _ _ h

theorem trans (h : a.Joined n p) (h' : a.Joined p q) : a.Joined n q :=
  Relation.EqvGen.trans _ _ _ h h'

theorem parent (hp : a.parent? n = some p) (hn : a.isCallableDefinition n = false) : a.Joined n p :=
  Relation.EqvGen.rel _ _ ⟨hp, hn⟩

end Joined

theorem isComparison_of_isPropagating (h : a.isPropagating n = .ok true) : a.isComparison n = false := by
  have hwords {words others : List String} (hdisjoint : ∀ w ∈ words, w ∉ others)
      (h : (a.text n).isAmong words = .ok true) : (a.text n).isOneOf others = false := by
    obtain ⟨w, hw, htext⟩ := Value.exists_text_of_isAmong h
    simpa [htext, Value.isOneOf] using hdisjoint w hw
  -- the operators that pass their operands on are listed, and none of them is one of the others
  unfold isPropagating at h
  split at h
  · next hk =>
    simp only [isComparison, hk]
    exact hwords (by decide) h
  · next hk =>
    simp only [isComparison, hk]
    exact hwords (by decide) h
  · simp at h

theorem IsPath.joined (h : a.IsPath root n) : a.isCallableDefinition n = false ∧ a.Joined root n := by
  induction h with
  | name hk => exact ⟨by simp [isCallableDefinition, hk], .refl root⟩
  | index hk hbase _ ih =>
    refine ⟨?_, ih.2.trans (.parent (parent?_of_child? hbase).1 ih.1)⟩
    rcases hk with hk | hk <;> simp [isCallableDefinition, hk]
  | member hk hbase _ ih =>
    exact ⟨by simp [isCallableDefinition, hk], ih.2.trans (.parent (parent?_of_child? hbase).1 ih.1)⟩
  | parentheses hk hinner _ ih =>
    have hparent := (parent?_of_mem_entries (hinner ▸ List.mem_singleton_self _)).1
    exact ⟨by simp [isCallableDefinition, hk], ih.2.trans (.parent hparent ih.1)⟩

theorem joined_callSiteOf {n : Nat} (h : a.callSiteOf? n = some call) (hn : a.isCallableDefinition n = false) :
    a.Joined n call := by
  obtain ⟨p, hp, -, ⟨hk, h⟩ | ⟨-, rfl⟩⟩ := callSiteOf?_eq_some_iff.1 h
  · have hlt := a.lt_of_parent? hp
    exact (Joined.parent hp hn).trans (joined_callSiteOf h (by simp [isCallableDefinition, hk]))
  · exact .parent hp hn
termination_by n

theorem joined_withoutOptions {n : Nat} (h : a.withoutOptions? n = some c) (hc : a.isCallableDefinition c = false) :
    a.isCallableDefinition n = false ∧ a.Joined c n := by
  rw [withoutOptions?] at h
  split at h
  · next hk =>
    refine ⟨by simp [isCallableDefinition, eq_of_beq hk], ?_⟩
    split at h
    · simp at h
    · next d hd =>
      have hlt := a.lt_of_child? hd
      obtain ⟨hinner, hjoined⟩ := joined_withoutOptions h hc
      exact hjoined.trans (.parent (parent?_of_child? hd).1 hinner)
  · obtain rfl := Option.some.inj h
    exact ⟨hc, .refl _⟩
termination_by a.size - n

theorem joined_receiver (h : a.receiver? call = some n) (hn : a.isCallableDefinition n = false) : a.Joined n call := by
  obtain ⟨access, hmember, hchild⟩ := Option.bind_eq_some_iff.1 h
  obtain ⟨hcallee, haccess⟩ := Option.filter_eq_some_iff.1 hmember
  obtain ⟨callee, hexpression, hwithout⟩ := Option.bind_eq_some_iff.1 hcallee
  obtain ⟨hinner, hjoined⟩ := joined_withoutOptions hwithout (by simp [isCallableDefinition, eq_of_beq haccess])
  have hcall : a.Joined callee call := .parent (parent?_of_child? hexpression).1 hinner
  exact ((Joined.parent (parent?_of_child? hchild).1 hn).trans hjoined).trans hcall

end Arena

namespace FlowModel

variable {m : FlowModel} {f : CallableId} {n p q site decl target call container : NodeId} {s : SsaForm}
  {x y : FlowNode} {xs : List FlowNode} {i : Int}

inductive Inside (m : FlowModel) (f : CallableId) : FlowNode → Prop
  | definition {d : Nat} : Inside m f (.definition f d)
  | result {i : Int} : Inside m f (.result f i)
  | read {root n : NodeId} (hroot : root ∈ m.rootsOf f) (hbelow : m.arena.Below root n)
      (hkind : m.arena.kind n = .identifier) : Inside m f (.expression n)

inductive Near (m : FlowModel) (n : NodeId) : FlowNode → Prop
  | expression {p : NodeId} (hp : m.arena.Joined n p) (hinner : m.arena.isCallableDefinition p = false)
      (hcarries : m.arena.isComparison p = false) : Near m n (.expression p)
  | argument {call : NodeId} {i : Int} (hcall : m.arena.Joined n call) : Near m n (.argument call i)
  | callResult {call : NodeId} {i : Int} (hcall : m.arena.Joined n call)
      (hkind : m.arena.kind call = .functionCall) : Near m n (.callResult call i)
  | state {site decl : NodeId} (hsite : m.arena.Joined n site) (hne : site ≠ decl) : Near m n (.stateWrite site decl)
  | element {root site : NodeId} (hroot : m.arena.Joined n root) (hsite : m.arena.Joined n site) :
      Near m n (.postUpdate root site)
  | inside {f : CallableId} {q : NodeId} {x : FlowNode} (hq : m.arena.Joined n q) (howner : m.owner? q = some f)
      (hx : m.Inside f x) : Near m n x

theorem Near.of_joined (h : m.Near p x) (hn : m.arena.Joined n p) : m.Near n x := by
  cases h with
  | expression hp hinner hcarries => exact .expression (hn.trans hp) hinner hcarries
  | argument hcall => exact .argument (hn.trans hcall)
  | callResult hcall hkind => exact .callResult (hn.trans hcall) hkind
  | state hsite hne => exact .state (hn.trans hsite) hne
  | element hroot hsite => exact .element (hn.trans hroot) (hn.trans hsite)
  | inside hq howner hx => exact .inside (hn.trans hq) howner hx

section Target

theorem inside_definitionNode (hs : (m.form? f).outcome = .ok (some s)) (d : Nat) :
    m.Inside f (definitionNode s d) := by
  unfold definitionNode
  rw [callable_of_form? hs]
  exact .definition

theorem DefinedAt.near (h : m.DefinedAt site decl x) : m.Near site x := by
  cases h with
  | intro howner hs hd => exact .inside (.refl site) howner (inside_definitionNode hs _)

theorem DefinedAt.not_isCallableDefinition (h : m.DefinedAt site decl x) (hne : site ≠ decl) :
    m.arena.isCallableDefinition site = false := by
  cases h with
  | intro _ hs hd =>
    obtain ⟨hgraph, -, -, hform⟩ := ValueFlow.outcome_form?_eq_some.1 hs
    rw [hform] at hd
    obtain ⟨w, hw, -⟩ := SsaForm.exists_mem_writesAt (ControlFlow.sound_of_controlGraph? hgraph) hd hne
    -- only statements and expressions write to a variable
    by_contra hdefinition
    unfold Arena.isCallableDefinition at hdefinition
    unfold Program.writesAt at hw
    cases hk : m.arena.kind site <;> simp [hk] at hdefinition hw

theorem Writes.near (h : m.Writes site target x) (hsite : m.arena.kind site ≠ .variableDeclaration)
    (htarget : m.arena.isCallableDefinition target = false → m.arena.Joined target site) : m.Near site x := by
  cases h with
  | state _ hdecl _ =>
    refine .state (.refl site) ?_
    rintro rfl
    exact hsite (Program.kind_of_findVariable_eq hdecl)
  | element hroot =>
    obtain ⟨hinner, hjoined⟩ := (Arena.isPath_of_rootExpression? hroot).joined
    exact .element (hjoined.trans (htarget hinner)).symm (.refl site)

theorem Receives.near (h : m.Receives site target x) (hsite : m.arena.kind site ≠ .variableDeclaration)
    (htarget : m.arena.isCallableDefinition target = false → m.arena.Joined target site) : m.Near site x := by
  rcases h with ⟨decl, hx⟩ | hx
  · exact hx.near
  · exact hx.writes.near hsite htarget

theorem slot_ne_clause {slot clause : NodeId} (hslot : m.arena.slot? container i = some slot)
    (hclause : m.arena.firstClause? container = some clause) (hkind : m.arena.kind container = .tryStatement) :
    clause ≠ slot := by
  have hentry := Arena.mem_slots_of_slot? hslot
  simp only [Arena.slots, hkind, hclause, Option.bind_some] at hentry
  split at hentry
  · simp at hentry
  · next list hlist =>
    have hlt := (m.arena.lt_of_child? hlist).1
    have hlt' := (m.arena.lt_of_mem_entries hentry).1
    exact Nat.ne_of_lt (Nat.lt_trans hlt hlt')

theorem TakenAt.near (h : m.TakenAt container i x) (hcontainer : m.arena.container? n = some container) :
    m.Near container x := by
  cases h with
  | declared _ hx => exact hx.near
  | @assigned slot hslot hk hx =>
    refine hx.near (by simp [hk]) fun hinner => ?_
    obtain ⟨target, htarget, htuple, hentry⟩ := Arena.exists_tuple_of_slot? hcontainer hk hslot
    -- up from the component to the tuple, and from there to the assignment
    refine (Arena.Joined.parent (Arena.parent?_of_mem_entries hentry).1 hinner).trans ?_
    exact .parent (Arena.parent?_of_child? htarget).1 (by simp [Arena.isCallableDefinition, htuple])
  | @caught slot clause hslot hdeclaration hassignment hclause hx =>
    have hk : m.arena.kind container = .tryStatement := by
      rcases Arena.kind_of_container? hcontainer with hk | hk | ⟨hk, -⟩
      · exact absurd hk hdeclaration
      · exact hk
      · exact absurd hk hassignment
    have hinner := hx.not_isCallableDefinition (slot_ne_clause hslot hclause hk)
    have hparent := (Arena.parent?_of_mem_items (List.mem_of_head? hclause)).1
    exact hx.near.of_joined (Arena.Joined.parent hparent hinner).symm

end Target

theorem isCallableDefinition_of_isExpression (h : (m.arena.kind n).isExpression = true) :
    m.arena.isCallableDefinition n = false := by
  unfold Arena.isCallableDefinition
  split <;> simp_all [Kind.isExpression]

theorem isInner {k : Kind} (hk : m.arena.kind n = k) (hinner : k ≠ .functionDefinition ∧ k ≠ .modifierDefinition) :
    m.arena.isCallableDefinition n = false := by
  unfold Arena.isCallableDefinition
  split <;> simp_all

theorem near_self (hexpression : (m.arena.kind n).isExpression = true)
    (hoperation : m.arena.kind n = .binaryOperation ∨ m.arena.kind n = .unaryOperation →
      m.arena.isPropagating n = .ok true) : m.Near n (.expression n) := by
  refine .expression (.refl n) (isCallableDefinition_of_isExpression hexpression) ?_
  by_cases hk : m.arena.kind n = .binaryOperation ∨ m.arena.kind n = .unaryOperation
  · exact Arena.isComparison_of_isPropagating (hoperation hk)
  · unfold Arena.isComparison
    split <;> simp_all

theorem near_of_kind {k : Kind} (hk : m.arena.kind n = k)
    (hplain : k.isExpression = true ∧ k ≠ .binaryOperation ∧ k ≠ .unaryOperation) : m.Near n (.expression n) :=
  near_self (hk ▸ hplain.1) fun hoperation => by simp [hk, hplain.2] at hoperation

theorem Inside.use (hs : (m.form? f).outcome = .ok (some s)) {d : Nat} {u : NodeId} (hu : u ∈ s.usesOf d) :
    m.Inside f (.expression u) := by
  obtain ⟨root, hroot, hbelow, hkind⟩ := exists_root_of_use hs hu
  exact .read hroot hbelow hkind

def IsProper (m : FlowModel) : FlowNode → Prop
  | .expression n => m.arena.isCallableDefinition n = false
  | .callResult call _ => m.arena.kind call = .functionCall
  | .stateRead n _ => m.arena.kind n = .identifier
  | .postUpdate n site => m.arena.Joined n site
  | _ => True

/-- The expression `n` is the initial value of a state variable, and `y` is where the variable gets it. -/
def Initial (m : FlowModel) (n : NodeId) (y : FlowNode) : Prop :=
  ∃ decl, y = .stateWrite decl decl ∧ m.arena.parent? n = some decl ∧ m.arena.role n = "value" ∧ m.isState decl = true

def Keeps (m : FlowModel) : FlowNode → FlowNode → Prop
  | .expression n, y => m.Near n y ∨ m.Initial n y
  | .callResult n _, y | .argument n _, y | .postUpdate n _, y | .stateRead n _, y => m.Near n y
  | .parameter f _, y | .definition f _, y => m.Inside f y
  | .result .., _ | .stateWrite .., _ => False

theorem LocalRule.keeps (hrule : m.LocalRule x y) (hx : m.IsProper x) : m.Keeps x y := by
  -- a rule for an expression starts with the step up to its parent, which leaves no definition by `hx`
  cases hrule with
  | whole hp hexpression hoperation => exact .inl ((near_self hexpression hoperation).of_joined (.parent hp hx))
  | assigned hp hk htarget hy =>
    have hnear := hy.near (by simp [hk]) (.parent (Arena.parent?_of_child? htarget).1)
    exact .inl (hnear.of_joined (.parent hp hx))
  | declared hp hy => exact .inl (hy.near.of_joined (.parent hp hx))
  | initial hp hrole hstate => exact .inr ⟨_, rfl, hp, hrole, hstate⟩
  | component hp hk hcontainer hy =>
    have hjoined := Arena.Joined.parent (Arena.parent?_of_container? hcontainer) (isInner hk (by decide))
    exact .inl ((hy.near hcontainer).of_joined ((Arena.Joined.parent hp hx).trans hjoined))
  | returned hp hf => exact .inl (.inside (.parent hp hx) hf .result)
  | receiver hp hk hcall | option hp hk hcall =>
    have hjoined := Arena.joined_callSiteOf hcall (isInner hk (by decide))
    exact .inl (.argument ((Arena.Joined.parent hp hx).trans hjoined))
  | argument hp | held hp => exact .inl (.argument (.parent hp hx))
  | entry hs | merged hs => exact inside_definitionNode hs _
  | use hs hu => exact .use hs hu
  | exit => exact .result
  | invoked hroot hn hkind => exact .read (List.mem_append_right _ hroot) (Arena.below_of_mem_walk hn) hkind
  | value | read => exact near_of_kind hx (by decide)
  | taken hcontainer hy =>
    exact (hy.near hcontainer).of_joined (.parent (Arena.parent?_of_container? hcontainer) (isInner hx (by decide)))
  | passed hp hf => exact .inside (.parent hp (isInner hx (by decide))) hf .result
  | later hf hs hu => exact .inside (.refl _) hf (.use hs hu)

theorem TaintRule.keeps (hrule : m.TaintRule x y) (hx : m.IsProper x) : m.Keeps x y := by
  cases hrule with
  | whole hp hk =>
    refine .inl (Near.of_joined ?_ (.parent hp hx))
    rcases hk with hk | hk
    · exact near_of_kind hk (by decide)
    · exact near_of_kind hk (by decide)
  | assigned hp hk htarget hy =>
    have hnear := hy.near (by simp [hk]) (.parent (Arena.parent?_of_child? htarget).1)
    exact .inl (hnear.of_joined (.parent hp hx))
  | stepped hp hk _ hy => exact .inl ((hy.near (by simp [hk]) (.parent hp)).of_joined (.parent hp hx))
  | mixed hk | result hk => exact .callResult (.refl _) hk
  | pushed hk _ _ hbase hy => exact hy.near (by simp [hk]) (Arena.joined_receiver hbase)
  | extended _ _ hbase hdecl =>
    have hjoined := Arena.joined_receiver hbase (isInner (Program.kind_of_findVariable hdecl) (by decide))
    exact .element hjoined.symm (.refl _)

theorem Inside.isProper (h : m.Inside f x) : m.IsProper x := by
  cases h with
  | definition | result => trivial
  | read _ _ hkind => simp [IsProper, Arena.isCallableDefinition, hkind]

theorem Near.isProper (h : m.Near n x) : m.IsProper x := by
  cases h with
  | expression _ hinner _ => exact hinner
  | argument | state => trivial
  | callResult _ hkind => exact hkind
  | element hroot hsite => exact hroot.symm.trans hsite
  | inside _ _ hx => exact hx.isProper

theorem Keeps.isProper (h : m.Keeps x y) : m.IsProper y := by
  cases x with
  | expression n =>
    rcases h with hnear | ⟨decl, rfl, -⟩
    · exact hnear.isProper
    · trivial
  | parameter | definition => exact Inside.isProper h
  | callResult | argument | postUpdate | stateRead => exact Near.isProper h
  | result | stateWrite => exact h.elim

theorem JumpRule.isProper (hrule : m.JumpRule x y) : m.IsProper y ∧ y.expression? = none := by
  cases hrule with
  | parameter => exact ⟨trivial, rfl⟩
  | caller hkind hes he =>
    obtain ⟨heq, -⟩ := Linkage.site_of_mem_edges hes he
    exact ⟨heq ▸ hkind, rfl⟩
  | state hread => exact ⟨Program.kind_of_stateReadOf hread, rfl⟩

section Listed

theorem joined_of_mem_targetsOf (htarget : target ∈ m.targetsOf n)
    (hinner : m.arena.isCallableDefinition target = false) : m.arena.Joined target n := by
  unfold targetsOf at htarget
  split at htarget
  · simp at htarget
  · next left hleft =>
    have hparent := (Arena.parent?_of_child? hleft).1
    split at htarget
    · next htuple =>
      refine (Arena.Joined.parent (Arena.parent?_of_mem_items htarget).1 hinner).trans (.parent hparent ?_)
      simp [Arena.isCallableDefinition, eq_of_beq htuple]
    · obtain rfl := List.mem_singleton.1 htarget
      exact .parent hparent hinner

theorem NodeOf.near_or (h : m.NodeOf n x) : m.Near n x ∨
    x = .expression n ∧ m.arena.isCallableDefinition n = false ∨
    ∃ decl, x = .stateRead n decl ∧ m.arena.kind n = .identifier := by
  cases h with
  | expression hexpression => exact .inr (.inl ⟨rfl, isCallableDefinition_of_isExpression hexpression⟩)
  | read hkind => exact .inr (.inr ⟨_, rfl, hkind⟩)
  | call hcall _ _ hx =>
    refine .inl ?_
    cases hx with
    | argument | receiver | option => exact .argument (.refl n)
    | result => exact .callResult (.refl n) hcall
    | pushed _ _ hbase hxs hx =>
      exact (writes_of_mem_writeNodes hxs hx).near (by simp [hcall]) (Arena.joined_receiver hbase)
  | assigned hkind htarget hxs hx =>
    exact .inl ((writes_of_mem_writeNodes hxs hx).near (by simp [hkind]) (joined_of_mem_targetsOf htarget))
  | stepped hkind _ htarget hxs hx =>
    refine .inl ((writes_of_mem_writeNodes hxs hx).near (by simp [hkind]) ?_)
    exact .parent (Arena.parent?_of_child? htarget).1

theorem NodeOf.isProper (h : m.NodeOf n x) : m.IsProper x := by
  rcases h.near_or with hnear | ⟨rfl, hinner⟩ | ⟨decl, rfl, hkind⟩
  · exact hnear.isProper
  · exact hinner
  · exact hkind

theorem Near.ne_of_stateWrite (h : m.Near n (.stateWrite site decl)) : site ≠ decl := by
  cases h with
  | state _ hne => exact hne
  | inside _ _ hx => cases hx

theorem ne_of_stateWrite_mem (h : (m.nodesIn f).outcome = .ok xs) (hx : .stateWrite site decl ∈ xs) : site ≠ decl := by
  obtain ⟨_, -, n, -, ys, hys, hx⟩ := (mem_nodesIn_iff h (.inr (.inr rfl))).1 hx
  rcases ((mem_nodesAt_iff hys).1 hx).near_or with hnear | ⟨heq, -⟩ | ⟨_, heq, -⟩
  · exact hnear.ne_of_stateWrite
  · simp at heq
  · simp at heq

theorem IsListed.isProper (h : m.IsListed x) : m.IsProper x := by
  cases h with
  | parameter | result | definition | invoked | initial | base => trivial
  | below _ hx => exact hx.isProper

end Listed

end FlowModel

namespace FlowGraph

variable {g : FlowGraph} {x y : FlowNode} {o : Option CallableId}

inductive Inner (g : FlowGraph) (x y : FlowNode) : Prop
  | plain (hy : y ∈ (g.localSteps x).getD [])
  | taint (hy : y ∈ (g.taintSteps x).getD [])

/--
The flow nodes that are met, each with the callable that it is known to belong to: those of the list, and those that
steps lead to from there.
-/
inductive Occurs (g : FlowGraph) : FlowNode → Option CallableId → Prop
  | listed {x : FlowNode} (hx : x ∈ g.nodes.getD []) : Occurs g x (g.flowOwner? x)
  | inner {x y : FlowNode} {o : Option CallableId} (hx : Occurs g x o) (hy : g.Inner x y) :
      Occurs g y (g.reachedOwner? y)
  | jump {x y : FlowNode} {o : Option CallableId} (hx : Occurs g x o) (hy : y ∈ (g.jumpSteps x).getD []) :
      Occurs g y (g.reachedOwner? y)

theorem Inner.mem_flows (h : g.Inner x y) : y ∈ (g.localFlows x).getD [] ∨ y ∈ (g.taintFlows x).getD [] := by
  cases h with
  | plain hy => exact .inl (mem_distinct_iff.1 (Query.getD_eq_of_outcome (g.outcome_localSteps x) ▸ hy))
  | taint hy => exact .inr (mem_distinct_iff.1 (Query.getD_eq_of_outcome (g.outcome_taintSteps x) ▸ hy))

theorem mem_jumpFlows (hy : y ∈ (g.jumpSteps x).getD []) : y ∈ (g.jumpFlows x).getD [] :=
  mem_distinct_iff.1 (Query.getD_eq_of_outcome (g.outcome_jumpSteps x) ▸ hy)

theorem Inner.keeps (h : g.Inner x y) (hx : g.IsProper x) : g.Keeps x y := by
  rcases h.mem_flows with hy | hy
  · exact (FlowModel.localRule_of_mem hy).keeps hx
  · exact (FlowModel.taintRule_of_mem hy).keeps hx

theorem isListed_of_mem_nodes (hx : x ∈ g.nodes.getD []) : g.IsListed x := by
  rw [nodes_eq] at hx
  obtain ⟨xs, hxs, hx⟩ := Query.mem_getD_nil_iff.1 hx
  exact FlowModel.isListed_of_mem_listNodes hxs hx

theorem Occurs.isProper (h : g.Occurs x o) : g.IsProper x := by
  induction h with
  | listed hx => exact (isListed_of_mem_nodes hx).isProper
  | inner _ hy ih => exact (hy.keeps ih).isProper
  | jump _ hy _ => exact (FlowModel.jumpRule_of_mem (mem_jumpFlows hy)).isProper.1

end FlowGraph

end ContractFlow
