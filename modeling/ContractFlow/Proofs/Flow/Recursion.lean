import ContractFlow.Proofs.Flow.Complete
import ContractFlow.Proofs.Flow.Confined

/-! This module shows when a search notices that a callable is entered again which is still being run. -/

namespace ContractFlow

namespace Search

theorem mem_nextChain {chain : List CallableId} {f : CallableId} {change : Int} :
    f ∈ nextChain chain (some f) change := by
  unfold nextChain
  split
  · simp
  · generalize (if change < 0 then chain.dropLast else chain) = left
    dsimp only
    split
    · next hlast => exact List.mem_of_getLast? (beq_iff_eq.1 hlast)
    · exact List.mem_singleton_self f

namespace Rules

/-- Nodes that steps within the bound lead to, with the call depth there and the callables that are being run. -/
inductive LeadsOver (r : Rules) (limit : Int) (source : FlowNode) (owner : Option CallableId) :
    FlowNode → Nat → List CallableId → Prop
  | start : LeadsOver r limit source owner source 0 owner.toList
  | step {x y : FlowNode} {depth : Nat} {chain : List CallableId} {change : Int} {steps : List (FlowNode × Int)} :
      LeadsOver r limit source owner x depth chain → (r.steps x).outcome = .ok steps → (y, change) ∈ steps →
      (r.isBarrier y).outcome = .ok false → max 0 (depth + change) ≤ limit →
      LeadsOver r limit source owner y ((depth : Int) + change).toNat (nextChain chain (r.owner y) change)

/--
Nodes on ways within the bound that never return: a step stays in the callable that was entered last, or enters another
one. All callables that were entered are active.
-/
inductive Descends (r : Rules) (limit : Int) (source : FlowNode) (owner : Option CallableId) :
    FlowNode → Nat → List CallableId → Prop
  | start : Descends r limit source owner source 0 owner.toList
  | stay {x y : FlowNode} {depth : Nat} {active : List CallableId} {steps : List (FlowNode × Int)} :
      Descends r limit source owner x depth active → (r.steps x).outcome = .ok steps → (y, 0) ∈ steps →
      (r.isBarrier y).outcome = .ok false → (depth : Int) ≤ limit →
      (∀ f, r.owner y = some f → active.getLast? = some f) → Descends r limit source owner y depth active
  | enter {x y : FlowNode} {depth next : Nat} {active : List CallableId} {change : Int}
      {steps : List (FlowNode × Int)} :
      Descends r limit source owner x depth active → (r.steps x).outcome = .ok steps → (y, change) ∈ steps →
      (r.isBarrier y).outcome = .ok false → 0 < change → (next : Int) = depth + change → (next : Int) ≤ limit →
      Descends r limit source owner y next (active ++ (r.owner y).toList)

variable {r : Rules} {limit : Int} {source x : FlowNode} {owner : Option CallableId} {depth : Nat} {f : CallableId}
  {chain active : List CallableId}

theorem Descends.leads (h : r.Descends limit source owner x depth active) : r.Leads limit source x depth := by
  induction h with
  | start => exact .start
  | stay _ hsteps hmem hbarrier hnear _ ih => exact .step ih hsteps hmem hbarrier (by omega) hnear
  | enter _ hsteps hmem hbarrier hchange hnext hnear ih => exact .step ih hsteps hmem hbarrier (by omega) hnear

theorem LeadsOver.owner_mem (h : r.LeadsOver limit source owner x depth chain) (hx : r.owner x = some f)
    (hsource : r.owner source = some f → owner = some f) : f ∈ chain := by
  cases h with
  | start => rw [hsource hx, Option.toList_some, List.mem_singleton]
  | step => exact hx ▸ mem_nextChain

end Rules

def Charts (r : Rules) (limit : Int) (source : FlowNode) (owner : Option CallableId) (s : Search) : Prop :=
  ∀ x mark, s.marks.lookup x = some mark → ∃ d ≤ mark.depth, r.LeadsOver limit source owner x d mark.chain

variable {r : Rules} {limit : Int} {source x y : FlowNode} {owner : Option CallableId} {depth d : Nat} {change : Int}
  {s s' : Search} {chain : List CallableId} {steps : List (FlowNode × Int)} {f : CallableId}

section Run

variable (hbeyond : ∀ depth, r.isBeyond depth = .ok (decide (limit < depth)))

include hbeyond

theorem Stepped.charts (h : Stepped r x chain y change ((depth : Int) + change).toNat s s')
    (hsteps : (r.steps x).outcome = .ok steps) (hmem : (y, change) ∈ steps) (hd : d ≤ depth)
    (hx : r.LeadsOver limit source owner x d chain) (hs : s.Charts r limit source owner) :
    s'.Charts r limit source owner := by
  intro z mark hz
  cases h with
  | cut _ _ hmarks _ _ => exact hs z mark (hmarks ▸ hz)
  | left _ _ _ hmarks _ _ => exact hs z mark (hmarks ▸ hz)
  | entered hnear _ hbarrier _ hmarks _ _ =>
    rw [lookup_of_entered hmarks] at hz
    split at hz
    · next heq =>
      subst heq
      cases hz
      have hlimit : ((((depth : Int) + change).toNat : Nat) : Int) ≤ limit := by
        simpa using Except.ok.inj ((hbeyond _).symm.trans hnear)
      exact ⟨((d : Int) + change).toNat, by dsimp only; omega, .step hx hsteps hmem hbarrier (by omega)⟩
    · exact hs z mark hz

theorem Round.charts (h : Round r s s') (hs : s.Accounts r s.queue) (hcharts : s.Charts r limit source owner) :
    s'.Charts r limit source owner := by
  cases h with
  | done _ heq => exact heq ▸ hcharts
  | @opened x depth rest steps t hqueue hsteps hmarks _ _ _ hwalked =>
    -- a node may have been reached less deep since it began to wait, and is then opened with the later chain
    obtain ⟨mark, hmark, hle⟩ := hs.waits x depth (hqueue ▸ List.mem_cons_self)
    obtain ⟨d, hd, hx⟩ := hcharts x mark hmark
    rw [hmark] at hwalked
    refine hwalked.keeps (fun hmem h => h.charts hbeyond hsteps hmem (hd.trans hle) hx) ?_
    unfold Charts
    rw [hmarks]
    exact hcharts

end Run

theorem charts_start : (start source owner).Charts r limit source owner := by
  intro x mark hx
  rw [lookup_start] at hx
  split at hx
  · next heq =>
    cases hx
    exact ⟨0, le_rfl, heq ▸ .start⟩
  · cases hx

theorem Accounts.truncated_of_mem_chain {mark : Mark} (h : s.Accounts r []) (hx : s.marks.lookup x = some mark)
    (hsteps : (r.steps x).outcome = .ok steps) (hmem : (y, change) ∈ steps) (hchange : 0 < change)
    (howner : r.owner y = some f) (hf : f ∈ mark.chain) : s.truncated = true := by
  obtain ⟨steps', hsteps', hall⟩ := (h.settled x mark hx).resolve_left (by simp)
  obtain rfl := Except.ok.inj (hsteps.symm.trans hsteps')
  cases hall y change hmem with
  | cut _ htruncated => exact htruncated
  | taken _ hagain _ => exact hagain (by simp [Rules.reenters, hchange, howner, hf])

end Search

namespace FlowGraph

open Search

variable {g : FlowGraph} {p : Policy} {mode : FlowMode} {source : FlowNode} {reach : FlowReach} {limit : Int}

theorem exists_charts_of_reach (hlimit : p.maxCallDepth = .int limit) (hends : FlowSearch.Ends ⟨g, p, mode⟩ source)
    (hreach : (g.reach p mode source).outcome = .ok reach) :
    ∃ s : Search, s.Accounts (g.rules p mode) [] ∧ s.depth? source = some 0 ∧
      s.Charts (g.rules p mode) limit source (g.flowOwner? source) ∧ reach = ⟨source, s.reached, s.truncated⟩ := by
  obtain ⟨k, s, hs, hqueue, hnotes, heq⟩ := exists_iterate_of_reach hends hreach
  let P (s : Search) : Prop := s.Accounts (g.rules p mode) s.queue ∧ s.depth? source = some 0 ∧
    s.Charts (g.rules p mode) limit source (g.flowOwner? source)
  have hround {t t' : Search} (h : Round (g.rules p mode) t t') (ht : P t) : P t' := by
    exact ⟨h.accounts ht.1, h.depth?_eq_zero ht.2.1, h.charts (Policy.isBeyond_eq hlimit) ht.1 ht.2.2⟩
  have hstart : P (start source (g.flowOwner? source)) :=
    ⟨accounts_start source _, depth?_start source _, charts_start⟩
  obtain ⟨haccounts, hsource, hcharts⟩ : P s := by
    subst hs
    exact iterate_of_round hround hstart k hnotes
  exact ⟨s, hqueue ▸ haccounts, hsource, hcharts, heq⟩

/--
A callable that is entered again while it is active on a way within the bound is noticed, unless the node before has
been reached no deeper over another chain of calls without the callable. So a callable that calls itself is always
noticed, but callables that call each other may not be.
-/
theorem recursion_is_flagged_unless_bypassed (g : FlowGraph) (p : Policy) (mode : FlowMode) (source : FlowNode)
    (limit : Int) (hlimit : p.maxCallDepth = .int limit) (hends : FlowSearch.Ends ⟨g, p, mode⟩ source)
    (reach : FlowReach) (hreach : (g.reach p mode source).outcome = .ok reach) (x y : FlowNode) (depth : Nat)
    (active : List CallableId) (hx : (g.rules p mode).Descends limit source (g.flowOwner? source) x depth active)
    (steps : List (FlowNode × Int)) (hsteps : (g.steps p mode x).outcome = .ok steps) (change : Int)
    (hmem : (y, change) ∈ steps) (hchange : 0 < change) (f : CallableId) (howner : g.reachedOwner? y = some f)
    (hactive : f ∈ active) :
    reach.truncated = true ∨ g.reachedOwner? x ≠ some f ∧ ∃ d ≤ depth, ∃ chain ≠ active,
      (g.rules p mode).LeadsOver limit source (g.flowOwner? source) x d chain ∧ f ∉ chain := by
  obtain ⟨s, hs, hsource, hcharts, rfl⟩ := exists_charts_of_reach hlimit hends hreach
  obtain ⟨mark, hmark, hle⟩ := hs.exists_mark_of_leads (Policy.isBeyond_eq hlimit) hsource hx.leads
  obtain ⟨d, hd, hway⟩ := hcharts x mark hmark
  by_cases hf : f ∈ mark.chain
  · exact .inl (hs.truncated_of_mem_chain hmark hsteps hmem hchange howner hf)
  · have hne : mark.chain ≠ active := fun heq => hf (heq ▸ hactive)
    refine .inr ⟨fun hown => hf (hway.owner_mem hown fun h => ?_), d, hd.trans hle, mark.chain, hne, hway, hf⟩
    rcases g.flowOwner?_eq_or source with heq | ⟨_, _, _, hnone⟩
    · exact heq.trans h
    · exact absurd (hnone.symm.trans h) (by simp)

end FlowGraph

namespace Mutual

open Sample

def argument (call : NodeId) (text : String) : Node :=
  { identifier call "arguments" text with position := some 0 }

def nodes : Array Node := #[
  unit [1],
  contract "A" [] [2, 3, 4],
  function 1 5 6 "both",
  function 1 7 8 "f",
  function 1 9 10 "g",
  parameterList 2 [11],
  block 2 [12, 13],
  parameterList 3 [14],
  block 3 [15],
  parameterList 4 [16],
  block 4 [17],
  parameter 5 "z",
  statement 6 18,
  statement 6 19,
  parameter 7 "x",
  statement 8 20,
  parameter 9 "y",
  statement 10 21,
  call 12 22 [23],
  call 13 24 [25],
  call 15 26 [27],
  call 17 28 [29],
  identifier 18 "expression" "f", argument 18 "z",
  identifier 19 "expression" "g", argument 19 "z",
  identifier 20 "expression" "g", argument 20 "x",
  identifier 21 "expression" "f", argument 21 "y"]

def arena : Arena :=
  arenaOf nodes (by decide +kernel)

def analysis : FlowGraph :=
  Session.analyse arena {} {}

def policy : Policy where
  name := "mutual"
  maxCallDepth := .int 3
  isSource _ := return false
  isSink _ := return false
  isBarrier _ _ := return false
  flowSteps _ := return []
  taintSteps _ := return []

abbrev rules : Search.Rules :=
  analysis.rules policy .data

def descent : List (FlowNode × CallableId × List (FlowNode × Int)) := [
  (.parameter 0 0, 0, [(.definition 0 0, 0)]),
  (.definition 0 0, 0, [(.expression 23, 0), (.expression 25, 0)]),
  (.expression 23, 0, [(.argument 18 0, 0)]),
  (.argument 18 0, 0, [(.parameter 1 0, 1)]),
  (.parameter 1 0, 1, [(.definition 1 0, 0)]),
  (.definition 1 0, 1, [(.expression 27, 0)]),
  (.expression 27, 1, [(.argument 20 0, 0)]),
  (.argument 20 0, 1, [(.parameter 2 0, 1)]),
  (.parameter 2 0, 2, [(.definition 2 0, 0)]),
  (.definition 2 0, 2, [(.expression 29, 0)]),
  (.expression 29, 2, [(.argument 21 0, 0)]),
  (.argument 21 0, 2, [(.parameter 1 0, 1)])]

theorem descent_eq : ∀ place ∈ descent,
    analysis.reachedOwner? place.1 = some place.2.1 ∧ (rules.steps place.1).outcome = .ok place.2.2 := by
  decide +kernel

section Descent

variable {x y : FlowNode} {f f' : CallableId} {depth : Nat} {active : List CallableId}
  {steps steps' : List (FlowNode × Int)}

theorem descends_stay (i : Nat) (h : rules.Descends 3 (.parameter 0 0) (some 0) x depth active)
    (hx : descent[i]? = some (x, f, steps)) (hy : descent[i + 1]? = some (y, f', steps')) (hmem : (y, 0) ∈ steps)
    (hdepth : depth ≤ 3) (hlast : active.getLast? = some f') :
    rules.Descends 3 (.parameter 0 0) (some 0) y depth active := by
  refine .stay h (descent_eq _ (List.mem_of_getElem? hx)).2 hmem rfl (by omega) fun f hf => ?_
  exact hlast.trans ((descent_eq _ (List.mem_of_getElem? hy)).1.symm.trans hf)

theorem descends_enter (i : Nat) (h : rules.Descends 3 (.parameter 0 0) (some 0) x depth active)
    (hx : descent[i]? = some (x, f, steps)) (hy : descent[i + 1]? = some (y, f', steps')) (hmem : (y, 1) ∈ steps)
    (hdepth : depth < 3) : rules.Descends 3 (.parameter 0 0) (some 0) y (depth + 1) (active ++ [f']) := by
  have howner : rules.owner y = some f' := (descent_eq _ (List.mem_of_getElem? hy)).1
  have henter := h.enter (descent_eq _ (List.mem_of_getElem? hx)).2 hmem rfl Int.one_pos (Int.natCast_succ depth)
    (by omega)
  rwa [howner] at henter

end Descent

theorem descends_second_call : rules.Descends 3 (.parameter 0 0) (some 0) (.argument 21 0) 2 [0, 1, 2] := by
  have hsource : rules.Descends 3 (.parameter 0 0) (some 0) (.parameter 0 0) 0 [0] := .start
  have hdefined := descends_stay 0 hsource rfl rfl (by decide) (by decide) rfl
  have hread := descends_stay 1 hdefined rfl rfl (by decide) (by decide) rfl
  have hpassed := descends_stay 2 hread rfl rfl (by decide) (by decide) rfl
  have hf := descends_enter 3 hpassed rfl rfl (by decide) (by decide)
  have hfDefined := descends_stay 4 hf rfl rfl (by decide) (by decide) rfl
  have hfRead := descends_stay 5 hfDefined rfl rfl (by decide) (by decide) rfl
  have hfPassed := descends_stay 6 hfRead rfl rfl (by decide) (by decide) rfl
  have hg := descends_enter 7 hfPassed rfl rfl (by decide) (by decide)
  have hgDefined := descends_stay 8 hg rfl rfl (by decide) (by decide) rfl
  have hgRead := descends_stay 9 hgDefined rfl rfl (by decide) (by decide) rfl
  exact descends_stay 10 hgRead rfl rfl (by decide) (by decide) rfl

def done : Search :=
  (Search.next rules)^[14] (.start (.parameter 0 0) (analysis.flowOwner? (.parameter 0 0)))

theorem done_eq : done.queue = [] ∧ done.truncated = false ∧ done.notes.outcome = .ok () := by
  decide +kernel

theorem outcome_reach : (analysis.reach policy .data (.parameter 0 0)).outcome =
    .ok ⟨.parameter 0 0, done.reached, done.truncated⟩ := by
  have hdescribe : ∃ text, analysis.describeFlow (.parameter 0 0) = .ok text := by
    unfold ValueFlow.describeFlow
    dsimp only
    split
    · exact ⟨_, rfl⟩
    · exact ⟨_, rfl⟩
  exact FlowGraph.outcome_reach rfl rfl hdescribe (Search.run_eq_iterate done_eq.1) done_eq.2.2

/-- `f` and `g` call each other, which is not noticed: each has also been entered without the other. -/
theorem second_call_is_bypassed :
    ∃ reach, (analysis.reach policy .data (.parameter 0 0)).outcome = .ok reach ∧ reach.truncated = false ∧
      rules.Descends 3 (.parameter 0 0) (some 0) (.argument 21 0) 2 [0, 1, 2] ∧
      (rules.steps (.argument 21 0)).outcome = .ok [(.parameter 1 0, 1)] ∧ rules.owner (.parameter 1 0) = some 1 ∧
      ∃ d ≤ 2, ∃ chain ≠ [0, 1, 2], rules.LeadsOver 3 (.parameter 0 0) (some 0) (.argument 21 0) d chain ∧
        1 ∉ chain := by
  have hstep : (rules.steps (.argument 21 0)).outcome = .ok [(.parameter 1 0, 1)] :=
    (descent_eq (.argument 21 0, 2, _) (by decide)).2
  have howner : rules.owner (.parameter 1 0) = some 1 :=
    (descent_eq (.parameter 1 0, 1, [(.definition 1 0, 0)]) (by decide)).1
  have hbypass := FlowGraph.recursion_is_flagged_unless_bypassed analysis policy .data (.parameter 0 0) 3 rfl
    ⟨14, done_eq.1⟩ _ outcome_reach (.argument 21 0) (.parameter 1 0) 2 [0, 1, 2] descends_second_call _ hstep 1
    (by decide) (by decide) 1 howner (by decide)
  refine ⟨_, outcome_reach, done_eq.2.1, descends_second_call, hstep, howner, ?_⟩
  exact (hbypass.resolve_left (by simp [done_eq.2.1])).2

end Mutual

end ContractFlow
