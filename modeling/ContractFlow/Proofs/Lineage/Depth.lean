import ContractFlow.Proofs.Lineage.Cycle
import Mathlib.Order.Bounds.Basic

/-!
This module shows that the depth of a contract below no cycle is the length of the longest chain of bases above it,
whatever was asked before. A base that a search passes over because it is open is on a cycle. On a cycle of several
contracts the depths depend on where the first search started.
-/

namespace ContractFlow

open Relation (TransGen)

namespace Outline

/-- The longest chains of bases from `c` on have `d` bases. -/
def IsDepth (o : Outline) (c : ContractId) (d : Nat) : Prop :=
  IsGreatest {n | ∃ chain, (c :: chain).IsChain (fun x b => b ∈ o.bases x) ∧ chain.length = n} d

def Derives (o : Outline) (c b : ContractId) : Prop :=
  b ∈ o.bases c ∧ b ≠ c

/-- A contract on a cycle of several contracts is the given one or is above it. -/
def IsBelowKnot (o : Outline) (c : ContractId) : Prop :=
  ∃ a, o.IsAbove a c ∧ TransGen o.Derives a a

def IsHeight (o : Outline) (c : ContractId) (d : Nat) : Prop :=
  IsGreatest {n | ∃ chain, (c :: chain).IsChain o.Derives ∧ chain.length = n} d

def AreDepths (o : Outline) (ds : Depths) : Prop :=
  ∀ c d, ds.get? c = some d → ¬ o.IsBelowKnot c → o.IsHeight c d

variable {o : Outline} {b c : ContractId} {isOpen : Bool} {rest stack : List (ContractId × Bool)}
  {path above : List ContractId} {ds : Depths}

theorem IsBelowCycle.of_base (hb : b ∈ o.bases c) (h : o.IsBelowCycle b) : o.IsBelowCycle c := by
  obtain ⟨a, ha, hcycle⟩ := h
  exact ⟨a, .base hb ha, hcycle⟩

theorem IsBelowKnot.of_derives (hb : o.Derives c b) (h : o.IsBelowKnot b) : o.IsBelowKnot c := by
  obtain ⟨a, ha, hknot⟩ := h
  exact ⟨a, .base hb.1 ha, hknot⟩

theorem IsBelowKnot.isBelowCycle (h : o.IsBelowKnot c) : o.IsBelowCycle c := by
  obtain ⟨a, ha, hknot⟩ := h
  exact ⟨a, ha, hknot.lift id fun _ _ hb => hb.1⟩

theorem isChain_derives_iff (hcycle : ¬ o.IsBelowCycle c) {chain : List ContractId} :
    (c :: chain).IsChain o.Derives ↔ (c :: chain).IsChain fun x b => b ∈ o.bases x := by
  induction chain generalizing c with
  | nil => simp
  | cons b chain ih =>
    rw [List.isChain_cons_cons, List.isChain_cons_cons]
    have hother : o.Derives c b ↔ b ∈ o.bases c := by
      refine and_iff_left_of_imp fun hb heq => hcycle ⟨c, .refl c, .single ?_⟩
      rwa [heq] at hb
    rw [hother]
    exact and_congr_right fun hb => ih (mt (.of_base hb) hcycle)

theorem IsHeight.isDepth {d : Nat} (h : o.IsHeight c d) (hcycle : ¬ o.IsBelowCycle c) : o.IsDepth c d := by
  simpa only [IsHeight, IsDepth, isChain_derives_iff hcycle] using h

theorem IsBelowCycle.exists_base (h : o.IsBelowCycle c) : ∃ b ∈ o.bases c, o.IsBelowCycle b := by
  obtain ⟨a, habove, hcycle⟩ := h
  rcases habove.eq_or_exists_base with rfl | ⟨b, hb, habove⟩
  · obtain ⟨b, hb, hback⟩ := TransGen.head'_iff.1 hcycle
    exact ⟨b, hb, a, hback, hcycle⟩
  · exact ⟨b, hb, a, habove, hcycle⟩

theorem depthFrom_spec (o : Outline) (ds : Depths) (c : ContractId) :
    (∀ b ∈ o.bases c, ∀ d, ds.get? b = some d → d < o.depthFrom ds c) ∧
      (o.depthFrom ds c = 0 ∨ ∃ b ∈ o.bases c, ∃ d, ds.get? b = some d ∧ o.depthFrom ds c = d + 1) := by
  have hmem {b : ContractId} {d : Nat} (hb : b ∈ o.bases c) (hd : ds.get? b = some d) :
      d ∈ (o.bases c).filterMap ds.get? := List.mem_filterMap.2 ⟨b, hb, hd⟩
  unfold depthFrom
  split
  · next hnil =>
    refine ⟨fun b hb d hd => ?_, .inl rfl⟩
    cases hnil ▸ hmem hb hd
  · next first others hlist =>
    have hmax : (first :: others).max? = some (others.foldl max first) := List.max?_cons'
    rw [List.max?_eq_some_iff, ← hlist] at hmax
    obtain ⟨b, hb, hd⟩ := List.mem_filterMap.1 hmax.1
    refine ⟨fun b hb d hd => ?_, .inr ⟨b, hb, _, hd, Nat.add_comm ..⟩⟩
    have := hmax.2 d (hmem hb hd)
    omega

theorem isHeight_depthFrom (hc : ds.isKnown c = false)
    (h : ∀ b, o.Derives c b → ∃ d, ds.get? b = some d ∧ o.IsHeight b d) : o.IsHeight c (o.depthFrom ds c) := by
  obtain ⟨hgreater, hattained⟩ := depthFrom_spec o ds c
  constructor
  · rcases hattained with hzero | ⟨b, hb, d, hd, heq⟩
    · exact ⟨[], .singleton c, hzero.symm⟩
    · have hb : o.Derives c b := ⟨hb, by rintro rfl; simp [Depths.isKnown, show ds.lookup b = some d from hd] at hc⟩
      obtain ⟨d', hd', ⟨chain, hchain, hlength⟩, -⟩ := h b hb
      obtain rfl := Option.some.inj (hd.symm.trans hd')
      refine ⟨b :: chain, List.isChain_cons_cons.2 ⟨hb, hchain⟩, ?_⟩
      rw [List.length_cons, hlength, heq]
  · rintro _ ⟨chain, hchain, rfl⟩
    cases chain with
    | nil => exact Nat.zero_le _
    | cons b chain =>
      obtain ⟨hb, hchain⟩ := List.isChain_cons_cons.1 hchain
      obtain ⟨d, hd, -, hgreatest⟩ := h b hb
      exact Nat.lt_of_le_of_lt (hgreatest ⟨chain, hchain, rfl⟩) (hgreater b hb.1 d hd)

/--
The other contracts that an open contract derives from are known, stand above it or are open below it. On top of the
stack stands `above`.
-/
def AreReady (o : Outline) (ds : Depths) : List (ContractId × Bool) → List ContractId → Prop
  | [], _ => True
  | (c, isOpen) :: rest, above =>
    (isOpen = true → ∀ b, o.Derives c b → ds.isKnown b ∨ b ∈ above ∨ (b, true) ∈ rest) ∧ AreReady o ds rest (c :: above)

theorem AreReady.mono {ds' : Depths} {above' : List ContractId} (h : o.AreReady ds stack above)
    (hmono : ∀ x, ds.isKnown x ∨ x ∈ above → ds'.isKnown x ∨ x ∈ above' ∨ (x, true) ∈ stack) :
    o.AreReady ds' stack above' := by
  induction stack generalizing above above' with
  | nil => trivial
  | cons entry rest ih =>
    obtain ⟨c, isOpen⟩ := entry
    refine ⟨fun hopen b hb => ?_, ih h.2 fun x hx => ?_⟩
    · have := hmono b
      have := h.1 hopen b hb
      have := hb.2
      grind
    · have := hmono x
      grind

theorem AreReady.append {bases : List ContractId} (h : o.AreReady ds stack (bases.reverse ++ above)) :
    o.AreReady ds (bases.map (·, false) ++ stack) above := by
  induction bases generalizing above with
  | nil => exact h
  | cons b bases ih =>
    refine ⟨fun hopen => (nomatch hopen), ih ?_⟩
    rwa [List.reverse_cons, List.append_assoc] at h

structure Sounds (o : Outline) (stack : List (ContractId × Bool)) (path : List ContractId) (ds : Depths) : Prop where
  depths : o.AreDepths ds
  ready : o.AreReady ds stack []
  leads : stack.Pairwise fun x y => y.2 = true → TransGen o.Derives y.1 x.1 ∧ x.1 ≠ y.1
  onPath : ∀ x ∈ path, ds.isKnown x = false ∧ (x, true) ∈ stack
  isOpen : ∀ x, (x, true) ∈ stack → x ∈ path

namespace Sounds

theorem start (h : o.AreDepths ds) (c : ContractId) : o.Sounds [(c, false)] [] ds :=
  ⟨h, ⟨by simp, trivial⟩, List.pairwise_singleton .., by simp, by simp⟩

/-- An entry that is not open is never on the path when it is taken from the stack. -/
theorem not_mem_path (h : o.Sounds ((c, false) :: rest) path ds) : c ∉ path := by
  intro hc
  have hmem : (c, true) ∈ rest := by simpa using (h.onPath c hc).2
  exact ((List.pairwise_cons.1 h.leads).1 _ hmem rfl).2 rfl

theorem findDepths_open (h : o.Sounds ((c, false) :: rest) path ds) (hc : ds.isKnown c = false) :
    o.findDepths ((c, false) :: rest) path ds =
      o.findDepths (o.openBases (c :: path) ds c ++ (c, true) :: rest) (c :: path) ds := by
  rw [Outline.findDepths, dif_neg (Bool.eq_false_iff.1 hc)]
  exact dif_neg (by simpa using h.not_mem_path)

theorem drop (h : o.Sounds ((c, isOpen) :: rest) path ds) (hc : ds.isKnown c) : o.Sounds rest path ds where
  depths := h.depths
  ready := by
    refine h.ready.2.mono fun x hx => hx.elim .inl fun hmem => ?_
    rw [List.mem_singleton.1 hmem]
    exact .inl hc
  leads := (List.pairwise_cons.1 h.leads).2
  onPath x hx := by
    obtain ⟨hnew, hmem⟩ := h.onPath x hx
    refine ⟨hnew, (List.mem_cons.1 hmem).elim ?_ id⟩
    rintro ⟨⟩
    exact absurd hc (Bool.eq_false_iff.1 hnew)
  isOpen x hx := h.isOpen x (List.mem_cons_of_mem _ hx)

theorem close (h : o.Sounds ((c, true) :: rest) path ds) :
    o.Sounds rest (closePath path c) ((c, o.depthFrom ds c) :: ds) where
  depths x d hd hx := by
    rw [Depths.get?, List.lookup_cons] at hd
    split at hd
    · next heq =>
      obtain rfl := eq_of_beq heq
      obtain rfl := Option.some.inj hd
      apply isHeight_depthFrom (h.onPath x (h.isOpen x List.mem_cons_self)).1
      intro b hb
      have hknown : ds.isKnown b = true := by
        rcases h.ready.1 rfl b hb with hknown | hmem | hmem
        · exact hknown
        · cases hmem
        · -- a base that is open leads back to `x`
          exact absurd ⟨x, .refl x, .head hb ((List.pairwise_cons.1 h.leads).1 _ hmem rfl).1⟩ hx
      obtain ⟨d, hd⟩ := Option.isSome_iff_exists.1 hknown
      exact ⟨d, hd, h.depths b d hd (mt (.of_derives hb) hx)⟩
    · exact h.depths x d hd hx
  ready := by
    refine h.ready.2.mono fun x hx => .inl ?_
    rw [Depths.isKnown_cons, Bool.or_eq_true, beq_iff_eq]
    exact hx.symm.imp_left List.mem_singleton.1
  leads := (List.pairwise_cons.1 h.leads).2
  onPath x hx := by
    obtain ⟨hx, hne⟩ := List.mem_filter.1 hx
    have hne : x ≠ c := by simpa using hne
    obtain ⟨hnew, hmem⟩ := h.onPath x hx
    rw [Depths.isKnown_cons, hnew, Bool.or_false]
    exact ⟨beq_false_of_ne hne, by simpa [hne] using hmem⟩
  isOpen x hx := by
    have hne := ((List.pairwise_cons.1 h.leads).1 _ hx rfl).2
    exact List.mem_filter.2 ⟨h.isOpen x (List.mem_cons_of_mem _ hx), bne_iff_ne.2 hne.symm⟩

theorem enter (h : o.Sounds ((c, false) :: rest) path ds) (hc : ds.isKnown c = false) :
    o.Sounds (o.openBases (c :: path) ds c ++ (c, true) :: rest) (c :: path) ds where
  depths := h.depths
  ready := by
    apply AreReady.append
    rw [List.reverse_reverse, List.append_nil]
    refine ⟨fun _ b hb => ?_, h.ready.2.mono fun x hx => ?_⟩
    · by_cases hmem : b ∈ path
      · exact .inr (.inr (by simpa using (h.onPath b hmem).2))
      · by_cases hknown : ds.isKnown b
        · exact .inl hknown
        · exact .inr (.inl (List.mem_filter.2 ⟨hb.1, by simpa [hknown] using ⟨hb.2, hmem⟩⟩))
    · exact hx.imp_right fun hmem => .inl (List.mem_cons.2 (.inl (List.mem_singleton.1 hmem)))
  leads := by
    have hbases : ∀ x ∈ o.openBases (c :: path) ds c, x.2 = false ∧ o.Derives c x.1 ∧ x.1 ∉ c :: path := by
      intro x hx
      obtain ⟨b, hb, rfl⟩ := List.mem_map.1 hx
      obtain ⟨hb, hnew⟩ := List.mem_filter.1 (List.mem_reverse.1 hb)
      have hpath : b ∉ c :: path := by
        rw [← List.contains_iff_mem]
        simp_all
      exact ⟨rfl, ⟨hb, fun heq => hpath (heq ▸ List.mem_cons_self)⟩, hpath⟩
    obtain ⟨htop, hrest⟩ := List.pairwise_cons.1 h.leads
    refine List.pairwise_append.2 ⟨?_, List.pairwise_cons.2 ⟨fun y hy hopen => ?_, hrest⟩, fun x hx y hy hopen => ?_⟩
    · refine List.pairwise_of_forall_mem_list fun x _ y hy hopen => ?_
      cases (hbases y hy).1.symm.trans hopen
    · exact htop y hy hopen
    · obtain ⟨-, hderives, hnew⟩ := hbases x hx
      rcases List.mem_cons.1 hy with rfl | hy
      · exact ⟨.single hderives, hderives.2⟩
      · refine ⟨.tail (htop y hy hopen).1 hderives, fun heq => hnew (heq ▸ List.mem_cons_of_mem _ ?_)⟩
        exact h.isOpen y.1 (List.mem_cons_of_mem _ (hopen ▸ hy))
  onPath := by
    rw [List.forall_mem_cons]
    refine ⟨⟨hc, by simp⟩, fun x hx => ?_⟩
    obtain ⟨hnew, hmem⟩ := h.onPath x hx
    exact ⟨hnew, List.mem_append_right _ (List.mem_cons_of_mem _ (by simpa using hmem))⟩
  isOpen x hx := by
    have hmem : x = c ∨ (x, true) ∈ rest := by simpa [openBases] using hx
    rw [List.mem_cons]
    exact hmem.imp_right fun hmem => h.isOpen x (List.mem_cons_of_mem _ hmem)

theorem findDepths (h : o.Sounds stack path ds) (hlast : stack.getLast? = some (c, true)) :
    ∃ found, o.findDepths stack path ds = (c, o.depthFrom found c) :: found ∧
      o.AreDepths ((c, o.depthFrom found c) :: found) ∧ ∀ b, o.Derives c b → found.isKnown b := by
  fun_induction Outline.findDepths o stack path ds with
  | case1 path ds => cases hlast
  | case2 path ds x isOpen rest hknown ih =>
    cases rest with
    | nil =>
      cases hlast
      exact absurd hknown (Bool.eq_false_iff.1 (h.onPath _ (h.isOpen _ List.mem_cons_self)).1)
    | cons y rest => exact ih (h.drop hknown) hlast
  | case3 path ds x rest hnew ih =>
    cases rest with
    | nil =>
      cases hlast
      refine ⟨ds, by rw [Outline.findDepths], h.close.depths, fun b hb => ?_⟩
      exact (h.ready.1 rfl b hb).resolve_right (by simp)
    | cons y rest => exact ih h.close hlast
  | case4 path ds x rest hnew hpath ih =>
    exact absurd (List.contains_iff_mem.1 hpath) h.not_mem_path
  | case5 path ds x rest hnew hpath _ ih =>
    cases rest with
    | nil => cases hlast
    | cons y rest =>
      refine ih (h.enter (Bool.eq_false_iff.2 hnew)) ?_
      rw [List.getLast?_append, List.getLast?_cons_cons]
      rw [List.getLast?_cons_cons] at hlast
      rw [hlast]
      rfl

end Sounds

theorem depth_of_known {d : Nat} (h : ds.get? c = some d) : o.depth ds c = (d, ds) := by
  have hknown : ds.isKnown c = true := by simp [Depths.isKnown, show ds.lookup c = some d from h]
  have hsame : o.findDepths [(c, false)] [] ds = ds := by rw [findDepths, dif_pos hknown, findDepths]
  simp only [depth, hsame, h, Option.getD_some]

theorem exists_depth_eq (h : o.AreDepths ds) (hc : ds.get? c = none) :
    ∃ found, o.depth ds c = (o.depthFrom found c, (c, o.depthFrom found c) :: found) ∧
      o.AreDepths ((c, o.depthFrom found c) :: found) ∧ ∀ b, o.Derives c b → found.isKnown b := by
  have hnew : ds.isKnown c = false := by simp [Depths.isKnown, show ds.lookup c = none from hc]
  obtain ⟨found, hfound, hspec⟩ := ((Sounds.start h c).enter hnew).findDepths (c := c) (by simp)
  refine ⟨found, ?_, hspec⟩
  have hstart := ((Sounds.start h c).findDepths_open hnew).trans hfound
  simp [depth, hstart, Depths.get?]

theorem isHeight_depth (h : o.AreDepths ds) (c : ContractId) :
    o.AreDepths (o.depth ds c).2 ∧ (¬ o.IsBelowKnot c → o.IsHeight c (o.depth ds c).1) := by
  cases hd : ds.get? c with
  | some d =>
    rw [depth_of_known hd]
    exact ⟨h, h c d hd⟩
  | none =>
    obtain ⟨found, heq, hdepths, -⟩ := exists_depth_eq h hd
    rw [heq]
    exact ⟨hdepths, hdepths c _ (by simp [Depths.get?])⟩

theorem isDepth_depth (h : o.AreDepths ds) (c : ContractId) :
    o.AreDepths (o.depth ds c).2 ∧ (¬ o.IsBelowCycle c → o.IsDepth c (o.depth ds c).1) := by
  obtain ⟨hdepths, hheight⟩ := isHeight_depth h c
  exact ⟨hdepths, fun hcycle => (hheight (mt IsBelowKnot.isBelowCycle hcycle)).isDepth hcycle⟩

/-- The contract that the first search starts from comes out deeper than the others that it derives from. -/
theorem depth_lt_of_derives (hb : o.Derives c b) : (o.depth (o.depth [] c).2 b).1 < (o.depth [] c).1 := by
  obtain ⟨found, heq, -, hknown⟩ := exists_depth_eq (fun x d hd => nomatch hd : o.AreDepths []) (c := c) rfl
  obtain ⟨d, hd⟩ := Option.isSome_iff_exists.1 (hknown b hb)
  have hlater : Depths.get? ((c, o.depthFrom found c) :: found) b = some d := by
    rw [Depths.get?, List.lookup_cons, beq_false_of_ne hb.2]
    exact hd
  rw [heq, depth_of_known hlater]
  exact (depthFrom_spec o found c).1 b hb.1 d hd

end Outline

namespace Session

variable {s : Session}

theorem areDepths_after (h : s.analysis.AreDepths s.depths) (question : Inquiry) :
    s.analysis.AreDepths (s.after question).depths := by
  cases question with
  | depth c => exact (Outline.isDepth_depth h c).1
  | _ => exact (depths_meet s _).symm ▸ h

theorem areDepths_afterAll (h : s.analysis.AreDepths s.depths) (questions : List Inquiry) :
    s.analysis.AreDepths (s.afterAll questions).depths := by
  induction questions generalizing s with
  | nil => exact h
  | cons question questions ih =>
    have hsame := (continues_after s question).analysis
    rw [← hsame]
    exact ih (hsame ▸ areDepths_after h question)

/--
The depth of a contract below no cycle is the largest number of bases on a chain of bases above it, after any questions.
-/
theorem depth_is_longest_chain (a : Arena) (plan : FailurePlan) (settings : Settings) (fresh : Session)
    (hstart : start a plan settings = .ok fresh) (history : List Inquiry) {c : ContractId}
    (hcycle : ¬ fresh.analysis.IsBelowCycle c) :
    ∃ d, ((fresh.afterAll history).askDepths [c]).1 = [d] ∧ fresh.analysis.IsDepth c d := by
  have hfresh : fresh.analysis.AreDepths fresh.depths := by
    obtain ⟨_, -, heq⟩ := Outcome.bind_eq_ok.1 hstart
    obtain rfl := Except.ok.inj heq
    exact fun x d hd => nomatch hd
  have hdepths := areDepths_afterAll hfresh history
  refine ⟨_, rfl, ?_⟩
  rw [(continues_afterAll fresh history).analysis]
  exact (Outline.isDepth_depth hdepths c).2 hcycle

theorem areDepths_askDepths (h : s.analysis.AreDepths s.depths) (history : List ContractId) :
    (s.askDepths history).2.analysis = s.analysis ∧ s.analysis.AreDepths (s.askDepths history).2.depths := by
  induction history generalizing s with
  | nil => exact ⟨rfl, h⟩
  | cons c history ih =>
    exact ih (s := { s with depths := (s.analysis.depth s.depths c).2 }) (Outline.isHeight_depth h c).1

theorem exists_isHeight (h : s.analysis.AreDepths s.depths) {c : ContractId} (hknot : ¬ s.analysis.IsBelowKnot c)
    (history : List ContractId) :
    ∃ d, ((s.askDepths history).2.askDepths [c]).1 = [d] ∧ s.analysis.IsHeight c d := by
  obtain ⟨hsame, hdepths⟩ := areDepths_askDepths h history
  refine ⟨_, rfl, ?_⟩
  rw [hsame]
  exact (Outline.isHeight_depth hdepths c).2 hknot

/--
The depths of a contract and of all contracts above it are the same whatever depths were asked for before just if it is
below no knot, so they are settled where every cycle consists of one contract that is its own base.
-/
theorem depths_are_settled_iff_not_below_knot (a : Arena) (plan : FailurePlan) (settings : Settings) (fresh : Session)
    (hstart : start a plan settings = .ok fresh) (c : ContractId) :
    (∀ x, fresh.analysis.IsAbove x c → ∀ history history' : List ContractId,
      ((fresh.askDepths history).2.askDepths [x]).1 = ((fresh.askDepths history').2.askDepths [x]).1) ↔
    ¬ fresh.analysis.IsBelowKnot c := by
  have hnone : fresh.depths = [] := by
    obtain ⟨_, -, heq⟩ := Outcome.bind_eq_ok.1 hstart
    obtain rfl := Except.ok.inj heq
    rfl
  have hfresh : fresh.analysis.AreDepths fresh.depths := hnone ▸ fun x d hd => nomatch hd
  constructor
  · rintro hsettled ⟨x, habove, hknot⟩
    have hless {y z : ContractId} (hz : fresh.analysis.IsAbove z c) (hyz : fresh.analysis.Derives y z) :
        (fresh.analysis.depth [] z).1 < (fresh.analysis.depth [] y).1 := by
      have hsame : [(fresh.analysis.depth fresh.depths z).1]
          = [(fresh.analysis.depth (fresh.analysis.depth fresh.depths y).2 z).1] := hsettled z hz [] [y]
      rw [hnone] at hsame
      rw [List.head_eq_of_cons_eq hsame]
      exact Outline.depth_lt_of_derives hyz
    -- so depths fall all the way round the knot
    have hfall {y : ContractId} (hy : TransGen fresh.analysis.Derives x y) : fresh.analysis.IsAbove y c ∧
        (fresh.analysis.depth [] y).1 < (fresh.analysis.depth [] x).1 := by
      induction hy with
      | single hy =>
        have hy' := habove.tail hy.1
        exact ⟨hy', hless hy' hy⟩
      | tail _ hy ih =>
        have hy' := ih.1.tail hy.1
        exact ⟨hy', (hless hy' hy).trans ih.2⟩
    exact Nat.lt_irrefl _ (hfall hknot).2
  · intro hknot x habove history history'
    have hx : ¬ fresh.analysis.IsBelowKnot x := fun ⟨a, ha, hloop⟩ => hknot ⟨a, ha.trans habove, hloop⟩
    obtain ⟨d, hd, hheight⟩ := exists_isHeight hfresh hx history
    obtain ⟨d', hd', hheight'⟩ := exists_isHeight hfresh hx history'
    rw [hd, hd', hheight.unique hheight']

end Session

namespace Looping

open Sample

/-- A contract, one derived from it, and one that is derived from itself and from the first one. -/
def arena : Arena :=
  arenaOf (Crossed.nodes.set! 7 (basePath 6 "C")) (by decide +kernel)

/-- The depth of the second contract is right, though that of the third one, which has none, was asked for before. -/
theorem depth_beside_cycle : ∃ fresh, Session.start arena {} {} = .ok fresh ∧ fresh.analysis.IsBelowCycle 2 ∧
    ((fresh.afterAll [.depth 2]).askDepths [1]).1 = [1] ∧ fresh.analysis.IsDepth 1 1 := by
  obtain ⟨fresh, hstart⟩ := Outcome.exists_of_isOk (e := Session.start arena {} {}) (by decide +kernel)
  have hbases : (Session.analyse arena {} {}).bases 0 = [] ∧ (Session.analyse arena {} {}).bases 1 = [0] ∧
      2 ∈ (Session.analyse arena {} {}).bases 2 := by decide +kernel
  rw [← (Session.of_start_eq_ok hstart).1] at hbases
  obtain ⟨hfirst, hsecond, hthird⟩ := hbases
  have hcycle : ¬ fresh.analysis.IsBelowCycle 1 := by
    intro h
    obtain ⟨b, hb, h⟩ := h.exists_base
    rw [hsecond, List.mem_singleton] at hb
    subst hb
    obtain ⟨b, hb, -⟩ := h.exists_base
    rw [hfirst] at hb
    cases hb
  obtain ⟨d, hd, hdepth⟩ := Session.depth_is_longest_chain arena {} {} fresh hstart [.depth 2] hcycle
  have hvalue : ((fresh.afterAll [.depth 2]).askDepths [1]).1 = [1] := by
    obtain ⟨_, -, heq⟩ := Outcome.bind_eq_ok.1 hstart
    obtain rfl := Except.ok.inj heq
    show [((Session.analyse arena {} {}).depth ((Session.analyse arena {} {}).depth [] 2).2 1).1] = [1]
    decide +kernel
  obtain rfl : 1 = d := by simpa using hvalue.symm.trans hd
  exact ⟨fresh, hstart, ⟨2, .refl 2, .single hthird⟩, hvalue, hdepth⟩

end Looping

namespace Entangled

/--
The depth of a contract on a cycle of several contracts is 3 at first and 1 after another question, and that of a
contract that is its own base is always 0.
-/
theorem depth_depends_on_questions : ∃ fresh, Session.start arena {} {} = .ok fresh ∧
    ((fresh.askDepths []).2.askDepths [3]).1 = [3] ∧ ((fresh.askDepths [0]).2.askDepths [3]).1 = [1] ∧
    fresh.analysis.IsBelowKnot 3 ∧ ∀ history, ((fresh.askDepths history).2.askDepths [4]).1 = [0] := by
  obtain ⟨fresh, hstart⟩ := Outcome.exists_of_isOk (e := Session.start arena {} {}) (by decide +kernel)
  have hsettled := Session.depths_are_settled_iff_not_below_knot arena {} {} fresh hstart
  obtain ⟨_, -, heq⟩ := Outcome.bind_eq_ok.1 hstart
  obtain rfl := Except.ok.inj heq
  have hbases : (Session.analyse arena {} {}).bases 4 = [4] := by decide +kernel
  have hfirst : ((Session.analyse arena {} {}).depth [] 3).1 = 3 := by decide +kernel
  have hlater : ((Session.analyse arena {} {}).depth ((Session.analyse arena {} {}).depth [] 0).2 3).1 = 1 := by
    decide +kernel
  have hloop : ((Session.analyse arena {} {}).depth [] 4).1 = 0 := by decide +kernel
  have hself : ¬ (Session.analyse arena {} {}).IsBelowKnot 4 := by
    rintro ⟨a, habove, hknot⟩
    have ha : a = 4 := by
      clear hknot
      induction habove with
      | refl => rfl
      | tail _ hb ih => rwa [ih, hbases, List.mem_singleton] at hb
    obtain ⟨b, ⟨hb, hne⟩, -⟩ := TransGen.head'_iff.1 (ha ▸ hknot)
    exact hne (by rwa [hbases, List.mem_singleton] at hb)
  refine ⟨_, hstart, congrArg ([·]) hfirst, congrArg ([·]) hlater, ?_, fun history => ?_⟩
  · by_contra hknot
    have hsame := List.head_eq_of_cons_eq ((hsettled 3).2 hknot 3 (.refl 3) [] [0])
    cases hfirst.symm.trans (hsame.trans hlater)
  · exact ((hsettled 4).2 hself 4 (.refl 4) history []).trans (congrArg ([·]) hloop)

end Entangled

end ContractFlow
