import ContractFlow.Proofs.Lineage.CommonOrder

/-!
This module shows which cycles of bases the search finds: no cycle is missed as a whole, but a contract is if a cycle
that it is on meets another one.
-/

namespace ContractFlow

open Relation (TransGen)

namespace Outline

def IsNamed (o : Outline) (c : ContractId) : Prop :=
  ∃ cycle ∈ o.cycles, (cycle.map o.contractName).contains (o.contractName c) = true

/--
Cycles meet near `c`: of the contracts that are on a cycle with it, one has two bases that are on a cycle with it. No
base of `c` has `c` as a base in turn.
-/
structure MeetsCycles (o : Outline) (c : ContractId) : Prop where
  apart : ∀ b ∈ o.bases c, c ∉ o.bases b
  fork : ∃ d, o.IsAbove d c ∧ ∃ b ∈ o.bases d, ∃ b' ∈ o.bases d, b ≠ b' ∧ o.IsAbove c b ∧ o.IsAbove c b'

variable {o : Outline} {c d v w : ContractId} {walk cycle : List ContractId}

theorem exists_walk (h : TransGen (fun c b => b ∈ o.bases c) c c) :
    ∃ walk, (c :: walk).IsChain (fun c b => b ∈ o.bases c) ∧ walk.getLast? = some c := by
  obtain ⟨b, hb, hback⟩ := TransGen.head'_iff.1 h
  obtain ⟨walk, hchain, hlast⟩ := List.exists_isChain_cons_of_relationReflTransGen hback
  refine ⟨b :: walk, List.isChain_cons_cons.2 ⟨hb, hchain⟩, ?_⟩
  rw [List.getLast?_eq_some_getLast (List.cons_ne_nil b walk), hlast]

theorem isAbove_of_mem_walk (hchain : (c :: walk).IsChain fun c b => b ∈ o.bases c)
    (hback : walk.getLast? = some c) (hv : v ∈ c :: walk) : o.IsAbove v c ∧ o.IsAbove c v := by
  obtain ⟨hfirst, hlast⟩ := Graph.reflTransGen_of_isChain hchain hv
  exact ⟨hfirst c rfl, hlast c (by simp [List.getLast?_cons, hback])⟩

theorem exists_mem_cycles (hchain : (c :: walk).IsChain fun c b => b ∈ o.bases c)
    (hback : walk.getLast? = some c) :
    ∃ v w, [v, w] <:+: c :: walk ∧ ∃ cycle ∈ o.cycles, v ∈ cycle ∧ w ∈ cycle := by
  have hc : c < o.contracts.size := by
    cases walk with
    | nil => cases hback
    | cons b walk => exact lt_size_of_base (List.isChain_cons_cons.1 hchain).1
  obtain ⟨v, w, hpair, path, hpath, hmem⟩ := cycles_searched.exists_cyclesThrough hchain
    (List.mem_of_getLast? hback) fun v hv => by
      have hlt := (isAbove_of_mem_walk hchain hback hv).1.lt_size hc
      exact ⟨hlt, mem_leaveOrder hlt⟩
  exact ⟨v, w, hpair, path, mem_cycles_iff.2 hpath, hmem⟩

theorem exists_mem_cycles_of_transGen (h : TransGen (fun c b => b ∈ o.bases c) c c) :
    ∃ cycle ∈ o.cycles, ∃ v ∈ cycle, o.IsAbove v c ∧ o.IsAbove c v := by
  obtain ⟨walk, hchain, hback⟩ := exists_walk h
  obtain ⟨v, w, hpair, cycle, hcycle, hv, -⟩ := exists_mem_cycles hchain hback
  exact ⟨cycle, hcycle, v, hv, isAbove_of_mem_walk hchain hback (hpair.subset (by simp))⟩

theorem transGen_of_mem_cycles (hcycle : cycle ∈ o.cycles) (hc : c ∈ cycle) : TransGen (fun c b => b ∈ o.bases c) c c :=
  (isCircuit_of_mem_cycles hcycle).transGen hc hc

theorem isAboveCycle_iff_isBelowCycle (h : o.HasDistinctNames) (hc : c < o.contracts.size) :
    o.isAboveCycle o.cycles c = true ↔ o.IsBelowCycle c := by
  constructor
  · intro habove
    by_contra hcycle
    rw [isAboveCycle_of_not_isBelowCycle hcycle] at habove
    cases habove
  · rintro ⟨a, ha, hloop⟩
    obtain ⟨cycle, hcycle, v, hv, hva, -⟩ := exists_mem_cycles_of_transGen hloop
    exact isAboveCycle_iff.2 ⟨v, (mem_baseClosure_iff h hc).2 (hva.trans ha), cycle, hcycle, hv⟩

theorem mem_of_isAbove (hcycle : cycle ∈ o.cycles) (hv : v ∈ cycle) (hvc : o.IsAbove v c) (hcv : o.IsAbove c v)
    (hfork : ¬ ∃ d, o.IsAbove d c ∧ ∃ b ∈ o.bases d, ∃ b' ∈ o.bases d, b ≠ b' ∧ o.IsAbove c b ∧ o.IsAbove c b') :
    c ∈ cycle := by
  have hcircuit := isCircuit_of_mem_cycles hcycle
  induction hcv using Relation.ReflTransGen.head_induction_on with
  | refl => exact hv
  | @head x y hy hyc ih =>
    obtain ⟨z, hz, hzx⟩ := hcircuit.exists_next hv
    have hxz : o.IsAbove x z := (hcircuit.transGen hz hv).to_reflTransGen
    -- both `y` and the contract behind `x` in the cycle are bases of `x` and lead back to `c`
    have heq : y = z := by
      by_contra hne
      exact hfork ⟨x, hvc, y, hy, z, hzx, hne, hyc, (IsAbove.base hy hyc).trans hxz⟩
    exact ih (heq ▸ hz) (IsAbove.trans (.base hy (.refl y)) hvc)

theorem exists_mem_cycles_of_not_meetsCycles (h : TransGen (fun c b => b ∈ o.bases c) c c)
    (hmeets : ¬ o.MeetsCycles c) : ∃ cycle ∈ o.cycles, c ∈ cycle := by
  by_cases hapart : ∀ b ∈ o.bases c, c ∉ o.bases b
  · obtain ⟨cycle, hcycle, v, hv, hvc, hcv⟩ := exists_mem_cycles_of_transGen h
    exact ⟨cycle, hcycle, mem_of_isAbove hcycle hv hvc hcv fun hfork => hmeets ⟨hapart, hfork⟩⟩
  · push Not at hapart
    obtain ⟨b, hb, hback⟩ := hapart
    -- of two neighbours on the way from `c` to `b` and back one is `c`
    have hchain : [c, b, c].IsChain fun c b => b ∈ o.bases c := by simp [hb, hback]
    obtain ⟨v, w, hpair, cycle, hcycle, hv, hw⟩ := exists_mem_cycles hchain rfl
    refine ⟨cycle, hcycle, ?_⟩
    rcases List.infix_cons_iff.1 hpair with hfirst | hpair
    · exact (List.prefix_cons_iff.1 hfirst).elim (by simp) fun ⟨_, heq, _⟩ => (List.cons.inj heq).1 ▸ hv
    · have := hpair.eq_of_length rfl
      exact (List.cons.inj (List.cons.inj this).2).1 ▸ hw

theorem isNamed_iff (h : o.HasDistinctNames) (hc : c < o.contracts.size) :
    o.IsNamed c ↔ ∃ cycle ∈ o.cycles, c ∈ cycle := by
  refine exists_congr fun cycle => and_congr_right fun hcycle => h.contains_iff (fun d hd => ?_) hc
  obtain ⟨b, hb, -⟩ := TransGen.head'_iff.1 (transGen_of_mem_cycles hcycle hd)
  exact lt_size_of_base hb

/--
The cycles that are reported are cycles: their contracts differ, each has the next one as a base and the last one the
first. There is one as soon as a contract can be reached from itself. Where names tell contracts apart, the search
through the bases of a contract finds a contract on a reported cycle just if there is any cycle above it.
-/
theorem reported_cycles_are_genuine (o : Outline) :
    (∀ cycle ∈ o.cycles, cycle ≠ [] ∧ cycle.Nodup ∧ cycle.IsChain (fun c b => b ∈ o.bases c) ∧
      ∀ first ∈ cycle.head?, ∀ last ∈ cycle.getLast?, first ∈ o.bases last) ∧
    (o.cycles = [] ↔ ∀ c, ¬ TransGen (fun c b => b ∈ o.bases c) c c) ∧
    (o.HasDistinctNames → ∀ c < o.contracts.size, (o.isAboveCycle o.cycles c = true ↔ o.IsBelowCycle c)) := by
  refine ⟨fun cycle hcycle => ?_, ⟨fun hnil c hloop => ?_, fun hnone => ?_⟩, fun hnames c hc => ?_⟩
  · have hcircuit := isCircuit_of_mem_cycles hcycle
    exact ⟨hcircuit.nonempty, hcircuit.nodup, hcircuit.chain, hcircuit.closed⟩
  · obtain ⟨cycle, hcycle, -⟩ := exists_mem_cycles_of_transGen hloop
    rw [hnil] at hcycle
    cases hcycle
  · refine List.eq_nil_iff_forall_not_mem.2 fun cycle hcycle => ?_
    obtain ⟨c, hc⟩ := List.exists_mem_of_ne_nil _ (isCircuit_of_mem_cycles hcycle).nonempty
    exact hnone c (transGen_of_mem_cycles hcycle hc)
  · exact isAboveCycle_iff_isBelowCycle hnames hc

/--
Where names tell contracts apart, a contract that a reported cycle names can be reached from itself, and one that can be
reached from itself is named unless cycles meet near it. In any case each way through bases back to its start has two
neighbours that one reported cycle holds.
-/
theorem cyclic_contract_is_named_unless_cycles_meet (o : Outline) (hnames : o.HasDistinctNames) {c : ContractId}
    (hc : c < o.contracts.size) :
    (o.IsNamed c → TransGen (fun c b => b ∈ o.bases c) c c) ∧
    (¬ o.MeetsCycles c → (o.IsNamed c ↔ TransGen (fun c b => b ∈ o.bases c) c c)) ∧
    ∀ walk, (c :: walk).IsChain (fun c b => b ∈ o.bases c) → walk.getLast? = some c →
      ∃ v w, [v, w] <:+: c :: walk ∧ ∃ cycle ∈ o.cycles, v ∈ cycle ∧ w ∈ cycle := by
  have hsound : o.IsNamed c → TransGen (fun c b => b ∈ o.bases c) c c := by
    rw [isNamed_iff hnames hc]
    rintro ⟨cycle, hcycle, hmem⟩
    exact transGen_of_mem_cycles hcycle hmem
  refine ⟨hsound, fun hmeets => ⟨hsound, fun hloop => ?_⟩, fun walk => exists_mem_cycles⟩
  exact (isNamed_iff hnames hc).2 (exists_mem_cycles_of_not_meetsCycles hloop hmeets)

end Outline

namespace Entangled

def contract (name : String) (bases : List String) : Value :=
  .object [("nodeType", .text "ContractDefinition"), ("name", .text name),
    ("baseContracts", .list (bases.map fun base => .object [("nodeType", .text "InheritanceSpecifier"),
      ("baseName", .object [("nodeType", .text "IdentifierPath"), ("name", .text base)])]))]

/-- Two cycles that share two of their three contracts, and a contract that is its own base. -/
def arena : Arena :=
  Arena.empty.plant [("nodeType", .text "SourceUnit"), ("nodes", .list [contract "A" ["B", "D"], contract "B" ["C"],
    contract "C" ["A"], contract "D" ["C"], contract "E" ["E"]])] (.text "sample.sol") ""

def outline : Outline :=
  .ofArena arena {}

theorem hasDistinctNames : outline.HasDistinctNames := by
  unfold Outline.HasDistinctNames
  decide +kernel

/-- The first of the two cycles is reported, and so is a cycle above the contract that is on the second one only. -/
theorem cycles_above_last : outline.cycles = [[0, 1, 2], [4]] ∧ outline.IsBelowCycle 3 := by
  have hnone := (Outline.reported_cycles_are_genuine outline).2.2 hasDistinctNames 3 (by decide +kernel)
  exact ⟨by decide +kernel, hnone.1 (by decide +kernel)⟩

/-- The contract on the second cycle only is not named, as cycles meet near it, though its neighbours are. -/
theorem contract_is_missed : ¬ outline.IsNamed 3 ∧ outline.MeetsCycles 3 ∧ outline.IsNamed 4 ∧
    ∃ v w, [v, w] <:+: [3, 2, 0, 3] ∧ ∃ cycle ∈ outline.cycles, v ∈ cycle ∧ w ∈ cycle := by
  have hmissed : ¬ outline.IsNamed 3 := by
    unfold Outline.IsNamed
    decide +kernel
  have hwalk : [3, 2, 0, 3].IsChain fun c b => b ∈ outline.bases c := by decide +kernel
  obtain ⟨-, hunless, hwalks⟩ := Outline.cyclic_contract_is_named_unless_cycles_meet outline hasDistinctNames
    (c := 3) (by decide +kernel)
  obtain ⟨-, hunless', -⟩ := Outline.cyclic_contract_is_named_unless_cycles_meet outline hasDistinctNames
    (c := 4) (by decide +kernel)
  have hself : 4 ∈ outline.bases 4 := by decide +kernel
  refine ⟨hmissed, ?_, (hunless' fun hmeets => hmeets.apart 4 hself hself).2 (.single hself), hwalks _ hwalk rfl⟩
  by_contra hmeets
  obtain ⟨h32, h20, h03⟩ : 2 ∈ outline.bases 3 ∧ 0 ∈ outline.bases 2 ∧ 3 ∈ outline.bases 0 := by decide +kernel
  exact hmissed ((hunless hmeets).2 (.head h32 (.head h20 (.single h03))))

end Entangled

end ContractFlow
