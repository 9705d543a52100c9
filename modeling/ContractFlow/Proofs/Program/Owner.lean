import ContractFlow.Proofs.Program.Model

/-! This module shows that every node below the definition of a callable belongs to that callable. -/

namespace ContractFlow

namespace Outline

variable {a : Arena} {plan : FailurePlan} (hr : a.IsRooted)

include hr

theorem exists_root_of_mem_tops {n : NodeId} (hn : n ∈ tops a) :
    ∃ root, a.parent? n = some root ∧ a.parent? root = none := by
  obtain ⟨u, hu, hn⟩ := List.mem_flatMap.1 hn
  exact ⟨u.root, Arena.parent?_of_mem_children hn, hr.parent u hu⟩

theorem nodup_tops : (tops a).Nodup := by
  refine List.nodup_flatMap.2 ⟨fun u _ => a.nodup_children u.root, ?_⟩
  refine (List.pairwise_map.1 hr.nodup).imp fun {u v} hne => ?_
  intro n hu hv
  have hparent := (Arena.parent?_of_mem_children hu).symm.trans (Arena.parent?_of_mem_children hv)
  exact hne (Option.some.inj hparent)

omit hr in
theorem nodup_draft {n : NodeId} {id : ContractId} {d : Draft}
    (h : Draft.IsModel a n id (a.items n "nodes") d) :
    ((d.functions ++ d.modifiers).map (·.node)).Nodup ∧
      ∀ x ∈ d.functions ++ d.modifiers, a.parent? x.node = some n := by
  constructor
  · rw [List.map_append]
    refine (h.functions.nodup (a.nodup_items n _)).append (h.modifiers.nodup (a.nodup_items n _)) ?_
    intro m hf hm
    obtain ⟨x, hx, rfl⟩ := List.mem_map.1 hf
    obtain ⟨y, hy, heq⟩ := List.mem_map.1 hm
    obtain ⟨hxm, hxf⟩ := h.isFunction x hx
    obtain ⟨hym, hyf⟩ := h.isModifier y hy
    rcases hxm.definition with hk | hk
    · have := (hym.function (heq ▸ hk)).1
      simp [hyf] at this
    · have := (hxm.modifier hk).1
      simp [hxf] at this
  · intro x hx
    rcases List.mem_append.1 hx with hx | hx
    · exact (Arena.parent?_of_mem_items (h.functions.subset (List.mem_map_of_mem hx))).1
    · exact (Arena.parent?_of_mem_items (h.modifiers.subset (List.mem_map_of_mem hx))).1

omit hr in
theorem mem_draftCallables {x : Callable} (hx : x ∈ draftCallables (sheafOf a plan).drafts) :
    ∃ c ∈ tops a, a.kind c = .contractDefinition ∧ a.parent? x.node = some c := by
  obtain ⟨d, hd, hx⟩ := List.mem_flatMap.1 hx
  obtain ⟨id, hid⟩ := List.mem_iff_getElem?.1 hd
  have hsheaf := isModel_sheafOf a plan
  obtain ⟨hk, hmodel⟩ := hsheaf.isDraft id d hid
  exact ⟨_, hsheaf.drafts.subset (List.mem_map_of_mem hd), hk, (nodup_draft hmodel).2 x hx⟩

theorem parent?_of_mem_callables {x : Callable} (hx : x ∈ (ofArena a plan).callables.toList) :
    ∃ above, a.parent? x.node = some above ∧
      (a.parent? above = none ∨ a.kind above = .contractDefinition ∧
        ∃ root, a.parent? above = some root ∧ a.parent? root = none) := by
  rw [callables_ofArena, List.mem_append] at hx
  rcases hx with hx | hx
  · obtain ⟨root, hroot, hnone⟩ :=
      exists_root_of_mem_tops hr ((isModel_sheafOf a plan).free.subset (List.mem_map_of_mem hx))
    exact ⟨root, hroot, .inl hnone⟩
  · obtain ⟨c, hc, hk, hparent⟩ := mem_draftCallables hx
    exact ⟨c, hparent, .inr ⟨hk, exists_root_of_mem_tops hr hc⟩⟩

theorem nodup_nodes : ((ofArena a plan).callables.toList.map (·.node)).Nodup := by
  have hsheaf := isModel_sheafOf a plan
  rw [callables_ofArena, List.map_append]
  refine (hsheaf.free.nodup (nodup_tops hr)).append ?_ ?_
  · rw [draftCallables, List.map_flatMap]
    refine List.nodup_flatMap.2 ⟨fun d hd => ?_, ?_⟩
    · obtain ⟨id, hid⟩ := List.mem_iff_getElem?.1 hd
      exact (nodup_draft (hsheaf.isDraft id d hid).2).1
    · refine (List.pairwise_map.1 (hsheaf.drafts.nodup (nodup_tops hr))).imp_of_mem ?_
      intro d e hd he hne n hn hm
      obtain ⟨id, hid⟩ := List.mem_iff_getElem?.1 hd
      obtain ⟨ie, hie⟩ := List.mem_iff_getElem?.1 he
      obtain ⟨x, hx, rfl⟩ := List.mem_map.1 hn
      obtain ⟨y, hy, heq⟩ := List.mem_map.1 hm
      have hxd := (nodup_draft (hsheaf.isDraft id d hid).2).2 x hx
      have hye := (nodup_draft (hsheaf.isDraft ie e hie).2).2 y hy
      rw [heq, hxd] at hye
      exact hne (Option.some.inj hye)
  · intro n hfree hdraft
    obtain ⟨x, hx, rfl⟩ := List.mem_map.1 hdraft
    obtain ⟨c, hc, -, hparent⟩ := mem_draftCallables hx
    obtain ⟨root, hroot, hnone⟩ := exists_root_of_mem_tops hr (hsheaf.free.subset hfree)
    obtain ⟨root', hroot', -⟩ := exists_root_of_mem_tops hr hc
    obtain rfl := Option.some.inj (hparent.symm.trans hroot)
    simp [hroot'] at hnone

theorem eq_of_below {x y : Callable} (hx : x ∈ (ofArena a plan).callables.toList)
    (hy : y ∈ (ofArena a plan).callables.toList) (h : a.Below x.node y.node) : y.node = x.node := by
  obtain ⟨above, hxp, -⟩ := parent?_of_mem_callables hr hx
  obtain ⟨above', hyp, hroot⟩ := parent?_of_mem_callables hr hy
  have hdefinition : a.kind x.node ≠ .contractDefinition := by
    obtain ⟨f, hf⟩ := List.mem_iff_getElem?.1 hx
    obtain ⟨hlt, rfl⟩ := callableD_of_getElem? hf
    obtain ⟨_, hmodel⟩ := exists_isModel hlt
    rcases hmodel.definition with hk | hk <;> simp [hk]
  rcases h.cases_tail with heq | ⟨p, hbelow, hp⟩
  · exact heq
  · obtain rfl := Option.some.inj (hyp.symm.trans hp)
    -- what stands above a definition is a contract or a root, so the way up from there does not meet another
    exfalso
    rcases hbelow.cases_tail with heq | ⟨q, hq, hqp⟩
    · rw [heq] at hroot
      rcases hroot with hnone | ⟨hk, -⟩
      · simp [hxp] at hnone
      · exact hdefinition hk
    · rcases hroot with hnone | ⟨-, root, hroot, hnone⟩
      · simp [hqp] at hnone
      · obtain rfl := Option.some.inj (hroot.symm.trans hqp)
        rcases hq.cases_tail with heq | ⟨_, -, hlast⟩
        · rw [heq] at hnone
          simp [hxp] at hnone
        · simp [hlast] at hnone

variable {f : CallableId} (hf : f < (ofArena a plan).callables.size)

include hf

theorem definedAt?_node : (ofArena a plan).definedAt? ((ofArena a plan).callableD f).node = some f := by
  have hsome : ((ofArena a plan).definedAt? ((ofArena a plan).callableD f).node).isSome := by
    rw [definedAt?, List.find?_isSome]
    exact ⟨f, List.mem_range.2 hf, BEq.rfl⟩
  obtain ⟨g, hg⟩ := Option.isSome_iff_exists.1 hsome
  have hlt : g < (ofArena a plan).callables.size := List.mem_range.1 (List.mem_of_find?_eq_some hg)
  have hnode : ((ofArena a plan).callableD g).node = ((ofArena a plan).callableD f).node := by
    simpa using List.find?_some hg
  have hget {i : CallableId} (hi : i < (ofArena a plan).callables.size) :
      ((ofArena a plan).callables.toList.map (·.node))[i]? = some ((ofArena a plan).callableD i).node := by
    rw [List.getElem?_map, Array.getElem?_toList, callableD, Array.getD_eq_getD_getElem?,
      Array.getElem?_eq_getElem hi]
    rfl
  have hnodup : ((ofArena a plan).callables.toList.map (·.node)).Nodup := nodup_nodes hr
  have heq := (List.getElem?_inj (by simpa using hlt) hnodup).1 ((hget hlt).trans (hnode ▸ (hget hf).symm))
  rw [hg, heq]

theorem enclosingDefinition?_of_below {n : NodeId} (h : a.Below ((ofArena a plan).callableD f).node n) :
    (ofArena a plan).enclosingDefinition? n = some f := by
  induction h with
  | refl =>
    rw [enclosingDefinition?, Arena.lineage, List.findSome?_cons, definedAt?_node hr hf]
  | @tail p c hbelow hparent ih =>
    have hnone : (ofArena a plan).definedAt? c = none := by
      by_contra hne
      obtain ⟨g, hg⟩ := Option.ne_none_iff_exists'.1 hne
      have hlt : g < (ofArena a plan).callables.size := List.mem_range.1 (List.mem_of_find?_eq_some hg)
      have hnode : ((ofArena a plan).callableD g).node = c := by simpa using List.find?_some hg
      have heq := eq_of_below hr (callableD_mem hf) (callableD_mem hlt) (hnode ▸ hbelow.tail hparent)
      rw [hnode] at heq
      have hle := heq ▸ Arena.Below.le hbelow
      exact Nat.not_lt_of_le hle (a.lt_of_parent? hparent)
    show (c :: a.ancestors c).findSome? _ = _
    rw [Arena.ancestors_of_parent? hparent, List.findSome?_cons, hnone]
    exact ih

end Outline

structure Program.IsPlanted (p : Program) : Prop where
  models : ∀ f < p.callables.size, ∃ contract, (p.callableD f).IsModel p.arena contract
  holder : ∀ f < p.callables.size, ∀ n, p.arena.Below (p.callableD f).node n → p.holder? n = some f

namespace Program.IsPlanted

variable {p : Program} {f : CallableId} {n m : NodeId}

theorem ofArena {a : Arena} (plan : FailurePlan) (hr : a.IsRooted) : (Program.ofArena a plan).IsPlanted where
  models _ hf := Outline.exists_isModel hf
  holder f hf n h := by
    rw [holder?, Memo.get_eq]
    exact Outline.enclosingDefinition?_of_below hr hf h

theorem below_of_holder? (h : p.holder? n = some f) : f < p.callables.size ∧ p.arena.Below (p.callableD f).node n := by
  rw [holder?, Memo.get_eq] at h
  obtain ⟨m, hm, hdefined⟩ := List.exists_of_findSome?_eq_some h
  have hnode : (p.callableD f).node = m := by simpa using List.find?_some hdefined
  refine ⟨List.mem_range.1 (List.mem_of_find?_eq_some hdefined), hnode ▸ ?_⟩
  exact Arena.below_of_mem_lineage hm

theorem holder?_parent (h : p.IsPlanted) (hn : p.holder? n = some f) (hdefinition : n ≠ (p.callableD f).node)
    (hparent : p.arena.parent? n = some m) : p.holder? m = some f := by
  obtain ⟨hf, hbelow⟩ := below_of_holder? hn
  rcases hbelow.cases_tail with heq | ⟨m', hm, hm'⟩
  · exact absurd heq hdefinition
  · obtain rfl := Option.some.inj (hparent.symm.trans hm')
    exact h.holder f hf m hm

theorem holder?_of_parent (h : p.IsPlanted) (hm : p.holder? m = some f) (hparent : p.arena.parent? n = some m) :
    p.holder? n = some f := by
  obtain ⟨hf, hbelow⟩ := below_of_holder? hm
  exact h.holder f hf n (hbelow.tail hparent)

end Program.IsPlanted

theorem Outline.IsLegible.isKnownCallable {o : Outline} (h : o.IsLegible) (f : CallableId) : o.isKnownCallable f = true :=
  (Option.all_eq_true _ _).2 fun c _ => h.known c

theorem Program.owner?_eq {p : Program} (h : p.IsLegible) (n : NodeId) : p.owner? n = p.holder? n := by
  unfold owner?
  cases p.holder? n with
  | none => rfl
  | some f => rw [Option.filter_some, if_pos (h.isKnownCallable f)]

end ContractFlow
