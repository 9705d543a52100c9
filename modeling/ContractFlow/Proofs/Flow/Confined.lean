import ContractFlow.Proofs.Flow.Near

/-! This module shows that values stay in their callable as long as they do not jump. -/

namespace ContractFlow

namespace Program

variable {p : Program} {n q : NodeId}

theorem IsPlanted.holder?_of_joined (hp : p.IsPlanted) (h : p.arena.Joined n q) : p.holder? n = p.holder? q := by
  induction h with
  | rel n q h =>
    obtain ⟨hparent, hinner⟩ := h
    cases hq : p.holder? q with
    | some f => exact hp.holder?_of_parent hq hparent
    | none =>
      cases hn : p.holder? n with
      | none => rfl
      | some f =>
        -- the callable would begin at `n`, but `n` is no definition
        have hne : n ≠ (p.callableD f).node := by
          rintro rfl
          obtain ⟨contract, hmodel⟩ := hp.models f (below_of_holder? hn).1
          rcases hmodel.definition with hk | hk <;> simp [Arena.isCallableDefinition, hk] at hinner
        exact absurd (hq.symm.trans (hp.holder?_parent hn hne hparent)) (by simp)
  | refl n => rfl
  | symm n q _ ih => exact ih.symm
  | trans n q r _ _ first second => exact first.trans second

theorem IsPlanted.owner?_of_joined (hp : p.IsPlanted) (h : p.arena.Joined n q) : p.owner? n = p.owner? q := by
  rw [owner?, owner?, hp.holder?_of_joined h]

theorem IsPlanted.holder?_of_contract (hp : p.IsPlanted) (hl : p.arena.IsLinked) (hs : p.arena.IsShaped) {n : NodeId}
    (hk : p.arena.kind n = .sourceUnit ∨ p.arena.kind n = .contractDefinition) : p.holder? n = none := by
  have hinner : p.arena.isCallableDefinition n = false := by
    rcases hk with hk | hk <;> simp [Arena.isCallableDefinition, hk]
  cases hparent : p.arena.parent? n with
  | some q =>
    have hlt := p.arena.lt_of_parent? hparent
    rw [hp.holder?_of_joined (.parent hparent hinner)]
    exact hp.holder?_of_contract hl hs (hs.kind_above_contract hl hk hparent)
  | none =>
    cases hn : p.holder? n with
    | none => rfl
    | some f =>
      obtain ⟨hf, hbelow⟩ := below_of_holder? hn
      rcases hbelow.cases_tail with rfl | ⟨q, -, hq⟩
      · obtain ⟨contract, hmodel⟩ := hp.models f hf
        rcases hmodel.definition with hk | hk <;> simp [Arena.isCallableDefinition, hk] at hinner
      · simp [hparent] at hq
termination_by n

theorem isKnownCallable_of_owner? {f : CallableId} (h : p.owner? n = some f) : p.isKnownCallable f = true :=
  (Option.filter_eq_some_iff.1 h).2

theorem owner?_of_holder? {f : CallableId} (h : p.holder? n = some f) :
    p.owner? n = some f ∨ p.owner? n = none ∧ p.isKnownCallable f = false := by
  rw [owner?, h]
  cases hf : p.isKnownCallable f with
  | true => exact .inl (by simp [hf])
  | false => exact .inr ⟨by simp [hf], rfl⟩

theorem flowOwner?_eq_or (p : Program) (x : FlowNode) : p.flowOwner? x = p.reachedOwner? x ∨
    ∃ f, p.flowOwner? x = some f ∧ p.isKnownCallable f = false ∧ p.reachedOwner? x = none := by
  have hholder (n : NodeId) : p.holder? n = p.owner? n ∨
      ∃ f, p.holder? n = some f ∧ p.isKnownCallable f = false ∧ p.owner? n = none := by
    cases hn : p.holder? n with
    | none => exact .inl (by simp [owner?, hn])
    | some f =>
      rcases owner?_of_holder? hn with howner | ⟨howner, hf⟩
      · exact .inl howner.symm
      · exact .inr ⟨f, rfl, hf, howner⟩
  cases x with
  | expression n | callResult n i | argument n i | stateRead n d => exact hholder n
  | parameter | definition | result | postUpdate | stateWrite => exact .inl rfl

end Program

namespace FlowModel

variable {m : FlowModel} {f : CallableId} {n : NodeId} {x y : FlowNode} {o : Option CallableId}

/--
A flow node is known to belong to the callable `o`. It is known to belong to none where a state variable gets its initial
value and the value belongs to `o`, or where `o` is one that cannot be looked up.
-/
inductive StaysIn (m : FlowModel) (o : Option CallableId) (y : FlowNode) : Prop
  | kept (hy : m.reachedOwner? y = o)
  | initial {value : NodeId} (hy : m.Initial value y) (ho : m.owner? value = o)
  | unknown {f : CallableId} (ho : o = some f) (hf : m.isKnownCallable f = false) (hy : m.reachedOwner? y = none)

theorem Initial.reachedOwner? (h : m.Initial n y) : m.reachedOwner? y = none := by
  obtain ⟨decl, rfl, -⟩ := h
  exact if_pos rfl

section Planted

variable (hp : m.IsPlanted)

include hp

theorem Inside.staysIn (h : m.Inside f x) : m.StaysIn (some f) x := by
  cases h with
  | definition | result => exact .kept rfl
  | read hroot hbelow _ =>
    rcases Program.owner?_of_holder? (holder?_of_below_root hp hroot hbelow) with howner | ⟨howner, hf⟩
    · exact .kept howner
    · exact .unknown rfl hf howner

theorem Near.reachedOwner? (h : m.Near n x) : m.reachedOwner? x = m.owner? n := by
  cases h with
  | expression hq | argument hq | callResult hq => exact (hp.owner?_of_joined hq).symm
  | state hsite hne => exact (if_neg hne).trans (hp.owner?_of_joined hsite).symm
  | element _ hsite => exact (hp.owner?_of_joined hsite).symm
  | inside hq howner hx =>
    rw [hp.owner?_of_joined hq, howner]
    cases hx.staysIn hp with
    | kept hx => exact hx
    | initial hy =>
      obtain ⟨decl, rfl, -⟩ := hy
      cases hx
    | unknown hf hunknown _ =>
      obtain rfl := Option.some.inj hf
      simp [Program.isKnownCallable_of_owner? howner] at hunknown

/-- In a legible program whose trees have the shape that compilers give them there are no exceptions. -/
theorem StaysIn.eq (h : m.StaysIn o y) (hlegible : m.IsLegible) (hl : m.arena.IsLinked) (hs : m.arena.IsShaped) :
    m.reachedOwner? y = o := by
  cases h with
  | kept hy => exact hy
  | @initial value hy ho =>
    rw [hy.reachedOwner?, ← ho, Program.owner?_eq hlegible]
    obtain ⟨decl, -, hparent, -, hstate⟩ := hy
    obtain ⟨hk, above, habove, hcontract⟩ := Program.parent?_of_isState hstate
    have hinner : m.arena.isCallableDefinition value = false := by
      by_contra hdefinition
      have houter : (m.arena.kind value).isOuter = true := by
        unfold Arena.isCallableDefinition at hdefinition
        split at hdefinition <;> simp_all [Kind.isOuter]
      have hdecl := (hs.outer value (Arena.lt_size_of_parent? hparent) houter decl hparent).1
      simp [hk, Kind.isOuter] at hdecl
    rw [hp.holder?_of_joined (.parent hparent hinner), hp.holder?_of_joined (.parent habove (isInner hk (by decide))),
      hp.holder?_of_contract hl hs (.inr hcontract)]
  | unknown _ hf => simp [hlegible.isKnownCallable] at hf

theorem Keeps.staysIn (hx : m.IsProper x) (h : m.Keeps x y) : m.StaysIn (m.reachedOwner? x) y := by
  cases x with
  | expression n =>
    rcases h with hnear | hinitial
    · exact .kept (hnear.reachedOwner? hp)
    · exact .initial hinitial rfl
  | parameter | definition => exact Inside.staysIn hp h
  | callResult | argument | stateRead => exact .kept (Near.reachedOwner? hp h)
  | postUpdate n site => exact .kept ((Near.reachedOwner? hp h).trans (hp.owner?_of_joined hx))
  | result | stateWrite => exact h.elim

end Planted

end FlowModel

namespace FlowGraph

variable {g : FlowGraph} {x y : FlowNode} {o : Option CallableId} (hp : g.IsPlanted)

theorem Occurs.reachedOwner? (h : g.Occurs x o) : o = g.reachedOwner? x ∨
    ∃ f, o = some f ∧ g.isKnownCallable f = false ∧ g.reachedOwner? x = none := by
  cases h with
  | listed => exact g.flowOwner?_eq_or x
  | inner | jump => exact .inl rfl

include hp

theorem Inner.staysIn (hx : g.Occurs x o) (h : g.Inner x y) : g.StaysIn o y := by
  have hstep := (h.keeps hx.isProper).staysIn hp hx.isProper
  rcases hx.reachedOwner? with rfl | ⟨f, rfl, hf, hnone⟩
  · exact hstep
  · rw [hnone] at hstep
    cases hstep with
    | kept hy => exact .unknown rfl hf hy
    | initial hy => exact .unknown rfl hf hy.reachedOwner?
    | unknown ho => simp at ho

theorem staysIn_of_run (hx : g.Occurs x o) (h : Relation.TransGen g.Inner x y) :
    g.Occurs y (g.reachedOwner? y) ∧ g.StaysIn o y := by
  induction h with
  | single hstep => exact ⟨.inner hx hstep, hstep.staysIn hp hx⟩
  | @tail y z _ hstep ih =>
    obtain ⟨hy, hstays⟩ := ih
    refine ⟨.inner hy hstep, ?_⟩
    have hnext := hstep.staysIn hp hy
    cases hstays with
    | kept hkept => exact hkept ▸ hnext
    | initial hinitial =>
      -- nothing follows what a state variable is initialised with but a jump
      obtain ⟨decl, rfl, -⟩ := hinitial
      exact (hstep.keeps trivial).elim
    | unknown ho hf hnone =>
      rw [hnone] at hnext
      cases hnext with
      | kept hz => exact .unknown ho hf hz
      | initial hz => exact .unknown ho hf hz.reachedOwner?
      | unknown hnone => simp at hnone

end FlowGraph

/--
However many steps inside a callable or of taint lead from a flow node that occurs in a program, they end at one that is
known to belong to the same callable. What can be known to belong to none is where a state variable gets its initial
value, and what stands in a contract that has no name to look it up by. But the first is in no callable and the second
does not occur where the words of the program are texts and its trees have the shape that compilers give them.
-/
theorem Session.values_stay_in_callable {sources : List Arena.Source} {a : Arena} (ha : Arena.ofSources sources = .ok a)
    (plan : FailurePlan) (settings : Settings) (x y : FlowNode) (o : Option CallableId)
    (hx : (analyse a plan settings).Occurs x o) (hrun : Relation.TransGen (analyse a plan settings).Inner x y) :
    (analyse a plan settings).StaysIn o y ∧
      (a.isLegible = true → a.IsShaped → (analyse a plan settings).reachedOwner? y = o) := by
  have hp : (analyse a plan settings).IsPlanted := .ofArena plan (.ofSources ha)
  have hstays := (FlowGraph.staysIn_of_run hp hx hrun).2
  refine ⟨hstays, fun hlegible hshaped => ?_⟩
  exact hstays.eq hp (Outline.isLegible_ofArena plan hlegible) (.ofSources ha) hshaped

/-! A contract with a variable `v = 1` and a function `g(y)` with the body `y;`. -/

namespace Initialised

def tree (kind : String) (fields : Fields) : Value :=
  .object (("nodeType", .text kind) :: fields)

def callable : Value :=
  tree "FunctionDefinition" [("name", "g"),
    ("parameters", tree "ParameterList"
      [("parameters", .list [tree "VariableDeclaration" [("name", "y"), ("id", .int 1)]])]),
    ("body", tree "Block" [("statements", .list [tree "ExpressionStatement"
      [("expression", tree "Identifier" [("name", "y"), ("referencedDeclaration", .int 1)])]])])]

def fields : Fields :=
  [("nodeType", "SourceUnit"), ("nodes", .list [tree "ContractDefinition" [("name", "C"), ("nodes", .list
    [tree "VariableDeclaration" [("name", "v"), ("value", tree "Literal" [("value", "1")])], callable])]])]

def arena : Arena :=
  Arena.empty.plant fields "sample.sol" ""

def analysis : FlowGraph :=
  Session.analyse arena {} {}

theorem ofSources_eq : Arena.ofSources [⟨"sample.sol", .object fields, ""⟩] = .ok arena := by
  have hadd : Arena.empty.add ⟨"sample.sol", .object fields, ""⟩ = .ok arena :=
    if_neg (by decide +kernel : ¬arena.nodes.any Arena.badKind = true)
  exact Outcome.bind_eq_ok.2 ⟨_, rfl, Outcome.bind_eq_ok.2 ⟨arena, hadd, rfl⟩⟩

theorem isShaped : arena.IsShaped where
  linked := by decide +kernel
  outer := by decide +kernel
  modifiers := by decide +kernel
  bases := by decide +kernel
  expression := by decide +kernel
  operand := by decide +kernel
  arguments := by decide +kernel
  names := by decide +kernel

/-- The parameter of `g` flows to where it is read, in `g`, and the variable gets its value in no callable. -/
theorem values_stay_in_callable_initialised :
    (analysis.Occurs (.parameter 0 0) (some 0) ∧ Relation.TransGen analysis.Inner (.parameter 0 0) (.expression 7) ∧
      analysis.reachedOwner? (.expression 7) = some 0) ∧
    analysis.Occurs (.expression 9) none ∧ Relation.TransGen analysis.Inner (.expression 9) (.stateWrite 2 2) ∧
      analysis.reachedOwner? (.stateWrite 2 2) = none := by
  have hlegible : arena.isLegible = true := by decide +kernel
  have hparameter : analysis.Occurs (.parameter 0 0) (some 0) := .listed (x := .parameter 0 0) (by decide +kernel)
  have hread : Relation.TransGen analysis.Inner (.parameter 0 0) (.expression 7) :=
    .tail (.single (.plain (y := .definition 0 0) (by decide +kernel))) (.plain (by decide +kernel))
  have hnone : analysis.flowOwner? (.expression 9) = none := by decide +kernel
  have hvalue : analysis.Occurs (.expression 9) none := hnone ▸ .listed (x := .expression 9) (by decide +kernel)
  have hwrite : Relation.TransGen analysis.Inner (.expression 9) (.stateWrite 2 2) := .single (.plain (by decide +kernel))
  refine ⟨⟨hparameter, hread, ?_⟩, hvalue, hwrite, ?_⟩
  · exact (Session.values_stay_in_callable ofSources_eq {} {} _ _ _ hparameter hread).2 hlegible isShaped
  · exact (Session.values_stay_in_callable ofSources_eq {} {} _ _ _ hvalue hwrite).2 hlegible isShaped

end Initialised

end ContractFlow
