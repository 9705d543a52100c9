import ContractFlow.Control.Structure
import ContractFlow.Proofs.Data.Group
import ContractFlow.Proofs.Query
import Mathlib.Logic.Relation

/-! This module shows that the nodes of an arena form trees, and that a walk visits each node of a tree once. -/

namespace ContractFlow

namespace Holding

theorem keys_toSlots (next : NodeId) (holdings : List (String × Holding)) :
    (toSlots next holdings).map (·.1) = holdings.map (·.1) := by
  induction holdings generalizing next with
  | nil => rfl
  | cons head rest ih => rw [toSlots, List.map_cons, ih, List.map_cons]

theorem keys_all_sublist (fields : Fields) : ((all fields).map (·.1)).Sublist (rolesOf fields) := by
  unfold all
  induction rolesOf fields with
  | nil => exact .slnil
  | cons role roles ih =>
    rw [List.filterMap_cons]
    split
    · exact ih.cons role
    · next h =>
      obtain ⟨v, -, h⟩ := Option.bind_eq_some_iff.1 h
      obtain ⟨held, -, rfl⟩ := Option.map_eq_some_iff.1 h
      exact ih.cons_cons role

end Holding

namespace Arena

variable {a : Arena} {n m c c' : NodeId} {role : String}

theorem getElem?_nodes (h : n < a.size) : a.nodes[n]? = some (a.node n) := by
  rw [node, Array.getD_eq_getD_getElem?, Array.getElem?_eq_getElem h, Option.getD_some]

theorem lt_size_of_kind {k : Kind} (h : a.kind n = k) (hk : k ≠ default) : n < a.size := by
  by_contra hn
  rw [kind, node_of_not_lt hn] at h
  exact hk h.symm

theorem lt_size_of_parent? (h : a.parent? n = some m) : n < a.size := by
  by_contra hn
  rw [parent?, node_of_not_lt hn] at h
  simp [default, instInhabitedNode.default] at h

theorem parent?_of_child? (h : a.child? n role = some c) : a.parent? c = some n ∧ a.role c = role := by
  unfold child? Node.child? at h
  split at h
  · next d hs =>
    exact parent?_of_mem_slot (mem_of_lookup_eq_some hs) (by simpa using h.symm)
  · simp at h

theorem parent?_of_mem_entries (h : some c ∈ a.entries n role) : a.parent? c = some n ∧ a.role c = role := by
  unfold entries Node.entries at h
  split at h
  · next slot hs => exact parent?_of_mem_slot (mem_of_lookup_eq_some hs) (Slot.mem_ids_iff.2 h)
  · simp at h

theorem mem_items_iff : c ∈ a.items n role ↔ some c ∈ a.entries n role := by
  unfold items
  simp

theorem parent?_of_mem_items (h : c ∈ a.items n role) : a.parent? c = some n ∧ a.role c = role :=
  parent?_of_mem_entries (mem_items_iff.1 h)

theorem parent?_of_mem_operands (h : c ∈ a.operands n) : a.parent? c = some n := by
  unfold operands at h
  split at h
  · simp at h
  · simp at h
  · simp at h
  · simp at h
  · rcases List.mem_append.1 h with h | h
    · exact (parent?_of_child? (Option.mem_toList.1 h)).1
    · exact (parent?_of_mem_items h).1
  · exact parent?_of_mem_children (List.mem_filter.1 h).1

theorem nodup_items (a : Arena) (n : NodeId) (role : String) : (a.items n role).Nodup := by
  unfold items entries Node.entries
  split
  · next slot hs =>
    have hids : slot.entries.filterMap id = slot.ids := by cases slot <;> rfl
    rw [hids]
    exact (List.nodup_flatMap.1 (a.nodup_children n)).1 _ (mem_of_lookup_eq_some hs)
  · exact List.nodup_nil

theorem nodup_operands (a : Arena) (n : NodeId) : (a.operands n).Nodup := by
  unfold operands
  split
  · exact List.nodup_nil
  · exact List.nodup_nil
  · exact List.nodup_nil
  · exact List.nodup_nil
  · apply List.Nodup.append
    · cases a.child? n "expression" <;> simp
    · exact a.nodup_items n "options"
    · intro c hc hc'
      have hrole := (parent?_of_child? (Option.mem_toList.1 hc)).2
      rw [(parent?_of_mem_items hc').2] at hrole
      simp at hrole
  · exact (a.nodup_children n).filter _

abbrev Below (a : Arena) : NodeId → NodeId → Prop :=
  Relation.ReflTransGen fun p c => a.parent? c = some p

theorem Below.le (h : a.Below n m) : n ≤ m := by
  induction h with
  | refl => exact Nat.le_refl n
  | tail _ hp ih =>
    have := a.lt_of_parent? hp
    exact Nat.le_trans ih (Nat.le_of_lt this)

theorem Below.total (h : a.Below c m) (h' : a.Below c' m) : a.Below c c' ∨ a.Below c' c := by
  induction h with
  | refl => exact .inr h'
  | tail hp hpm ih =>
    cases h' with
    | refl => exact .inl (hp.tail hpm)
    | tail hq hqm =>
      rw [hpm] at hqm
      obtain rfl := Option.some.inj hqm
      exact ih hq

theorem Below.not_parent (h : a.Below c c') (hne : c ≠ c') (hc : a.parent? c = some n) : a.parent? c' ≠ some n := by
  intro hc'
  cases h with
  | refl => exact hne rfl
  | tail hp hpc =>
    rw [hc'] at hpc
    obtain rfl := Option.some.inj hpc
    exact Nat.not_lt_of_le (Below.le hp) (a.lt_of_parent? hc)

theorem Below.unique (h : a.Below c m) (h' : a.Below c' m) (hc : a.parent? c = some n)
    (hc' : a.parent? c' = some n) : c = c' := by
  by_contra hne
  rcases h.total h' with h | h
  · exact h.not_parent hne hc hc'
  · exact h.not_parent (Ne.symm hne) hc' hc

/-- The trees of the units start at different nodes, none of which has a parent. -/
structure IsRooted (a : Arena) : Prop where
  nodup : (a.units.toList.map (·.root)).Nodup
  inside : ∀ u ∈ a.units.toList, u.root < a.size
  parent : ∀ u ∈ a.units.toList, a.parent? u.root = none

/-! Walks -/

theorem walkFrom_eq (a : Arena) (stack visited : List NodeId) :
    a.walkFrom stack visited = visited.reverse ++ stack.flatMap a.preorder := by
  fun_induction walkFrom a stack visited with
  | case1 visited => simp
  | case2 visited n rest ih =>
    rw [ih, List.flatMap_cons, preorder_eq a n]
    simp

theorem walk_eq_preorder (a : Arena) (n : NodeId) : a.walk n = a.preorder n := by
  rw [walk, walkFrom_eq]
  simp

theorem walk_eq (a : Arena) (n : NodeId) : a.walk n = n :: (a.children n).flatMap a.walk := by
  rw [walk_eq_preorder, preorder_eq, ← funext a.walk_eq_preorder]

theorem mem_walk_self (a : Arena) (n : NodeId) : n ∈ a.walk n := by
  rw [walk_eq]
  exact List.mem_cons_self

theorem mem_walk_iff : m ∈ a.walk n ↔ m = n ∨ ∃ c ∈ a.children n, m ∈ a.walk c := by
  rw [walk_eq, List.mem_cons, List.mem_flatMap]

theorem mem_walk_trans {n : NodeId} (hm : m ∈ a.walk n) (hc : c ∈ a.walk m) : c ∈ a.walk n := by
  rcases mem_walk_iff.1 hm with rfl | ⟨k, hk, hm⟩
  · exact hc
  · have := a.lt_of_mem_children hk
    exact mem_walk_iff.2 (.inr ⟨k, hk, mem_walk_trans hm hc⟩)
termination_by a.size - n

theorem below_of_mem_walk {n : NodeId} (h : m ∈ a.walk n) : a.Below n m := by
  rcases mem_walk_iff.1 h with rfl | ⟨c, hc, hm⟩
  · exact .refl
  · have := a.lt_of_mem_children hc
    exact .head (parent?_of_mem_children hc) (below_of_mem_walk hm)
termination_by a.size - n

theorem mem_walk_of_below (h : a.Below n m)
    (hlinked : ∀ c p, n < c → a.parent? c = some p → c ∈ a.children p) : m ∈ a.walk n := by
  induction h with
  | refl => exact mem_walk_self a n
  | tail hp hc ih =>
    have hlt := Nat.lt_of_le_of_lt (Below.le hp) (a.lt_of_parent? hc)
    exact mem_walk_trans ih (mem_walk_iff.2 (.inr ⟨_, hlinked _ _ hlt hc, mem_walk_self a _⟩))

theorem nodup_walk (a : Arena) (n : NodeId) : (a.walk n).Nodup := by
  rw [walk_eq]
  refine List.nodup_cons.2 ⟨fun hn => ?_, List.nodup_flatMap.2 ⟨fun c hc => ?_, ?_⟩⟩
  · obtain ⟨c, hc, hn⟩ := List.mem_flatMap.1 hn
    exact Nat.not_lt_of_le (below_of_mem_walk hn).le (a.lt_of_mem_children hc).1
  · have := a.lt_of_mem_children hc
    exact nodup_walk a c
  · refine (a.nodup_children n).imp_of_mem fun {c d} hc hd hne m hm hm' => hne ?_
    exact (below_of_mem_walk hm).unique (below_of_mem_walk hm') (parent?_of_mem_children hc)
      (parent?_of_mem_children hd)
termination_by a.size - n

theorem ancestors_of_parent? (h : a.parent? n = some m) : a.ancestors n = a.lineage m := by
  rw [ancestors]
  split
  · next hn => simp [h] at hn
  · next q hq =>
    obtain rfl := Option.some.inj (h.symm.trans hq)
    rfl

theorem below_of_mem_lineage {n : NodeId} (h : m ∈ a.lineage n) : a.Below m n := by
  rcases List.mem_cons.1 h with rfl | h
  · exact .refl
  · cases hp : a.parent? n with
    | none =>
      rw [ancestors] at h
      split at h
      · simp at h
      · next q hq => simp [hp] at hq
    | some p =>
      have := a.lt_of_parent? hp
      rw [ancestors_of_parent? hp] at h
      exact (below_of_mem_lineage h).tail hp
termination_by n

theorem isInside_iff : a.isInside n m = true ↔ a.Below m n := by
  rw [isInside, List.contains_iff_mem]
  refine ⟨below_of_mem_lineage, fun h => ?_⟩
  induction h with
  | refl => exact List.mem_cons_self
  | tail _ hp ih => exact List.mem_cons_of_mem _ (ancestors_of_parent? hp ▸ ih)

/-! How a tree grows -/

theorem foldr_attach_zipIdx {l : List α} {first : Nat} (f : { x // x ∈ l.zipIdx first } → β → β) (b : β)
    {motive : Nat → β → Prop} (start : motive (first + l.length) b)
    (step : ∀ x acc, motive (x.1.2 + 1) acc → motive x.1.2 (f x acc)) :
    motive first ((l.zipIdx first).attach.foldr f b) := by
  induction l generalizing first with
  | nil => exact start
  | cons x l ih =>
    rw [List.length_cons, ← Nat.add_assoc, Nat.add_right_comm] at start
    revert f
    rw [List.zipIdx_cons]
    intro f step
    rw [List.attach_cons, List.foldr_cons, List.foldr_map]
    exact step ⟨(x, first), _⟩ _ (ih _ start fun y acc hacc => step ⟨y.1, _⟩ acc hacc)

/--
What holds once the children of `id` are placed, and is kept by growing below the child `k` when the children after it
have grown, holds in the end.
-/
theorem grow_induction (unit : Nat) (nodes : Array Node) (ho : Ordered nodes) (id : Nat) (hid : id < nodes.size)
    (fields : Fields) {motive : Nat → Array Node → Prop}
    (start : motive (sprout unit nodes id fields).size (sprout unit nodes id fields))
    (step : ∀ (k : Nat) (s : Sprout) (grown : Array Node) (ho : Ordered grown) (hk : k < grown.size),
      nodes.size ≤ k → (sprout unit nodes id fields)[k]? = some (bud unit id s) → sizeOf s.fields < sizeOf fields →
      motive (k + 1) grown → motive k (grow unit grown ho k hk s.fields).1) :
    motive nodes.size (grow unit nodes ho id hid fields).1 := by
  unfold grow
  dsimp only
  rw [size_sprout] at start
  refine foldr_attach_zipIdx
    (motive := fun k (acc : { out : Array Node // Ordered out ∧ (sprout unit nodes id fields).size ≤ out.size }) =>
      motive k acc.1) _ _ start fun child acc hacc => ?_
  obtain ⟨hle, hlt, hfields⟩ := List.mem_zipIdx child.2
  refine step _ _ _ _ _ hle ?_ ?_ hacc
  · rw [getElem?_sprout_new unit id fields hle, List.getElem?_eq_getElem (by omega), ← hfields]
    rfl
  · rw [hfields]
    exact Holding.sizeOf_lt_of_mem_allSprouts (List.getElem_mem _)

theorem getElem?_grow (unit : Nat) (nodes : Array Node) (ho : Ordered nodes) (id : Nat) (hid : id < nodes.size)
    (fields : Fields) {i : Nat} (hi : i < nodes.size) (hne : id ≠ i) :
    (grow unit nodes ho id hid fields).1[i]? = nodes[i]? := by
  refine grow_induction unit nodes ho id hid fields (motive := fun _ out => out[i]? = nodes[i]?) ?_ ?_
  · rw [getElem?_sprout_old unit id fields hi, if_neg hne, Array.getElem?_eq_getElem hi]
  · intro k s grown ho hk hle _ hsub hgrown
    rw [getElem?_grow unit grown ho k hk s.fields (by omega) (by omega), hgrown]
termination_by sizeOf fields

/-- A node holds others in fields that its kind has, each of them once. -/
structure IsMade (n : Node) : Prop where
  kind : n.kind = Holding.kindOf n.fields
  keys : (n.slots.map (·.1)).Sublist (Holding.rolesOf n.fields)

structure IsTree (nodes : Array Node) (unit root : Nat) : Prop where
  parent : ∀ n ∈ nodes[root]?, n.parent = none
  unit : ∀ i ≥ root, ∀ n ∈ nodes[i]?, n.unit = unit
  made : ∀ i ≥ root, ∀ n ∈ nodes[i]?, IsMade n
  linked : ∀ i > root, ∀ n ∈ nodes[i]?, ∃ p ≥ root, n.parent = some p ∧ ∃ m ∈ nodes[p]?, i ∈ m.children

namespace IsTree

variable {unit root id : Nat} {nodes : Array Node} {fields : Fields}

theorem sprout (h : IsTree nodes unit root) (hroot : root ≤ id) (hid : id < nodes.size)
    (hbare : ∀ n ∈ nodes[id]?, n.slots = [] ∧ n.fields = fields) :
    IsTree (Arena.sprout unit nodes id fields) unit root := by
  -- what stood there keeps its parent and its unit, and keeps its children unless it is `id`
  have hcases : ∀ i, ∀ n ∈ (Arena.sprout unit nodes id fields)[i]?,
      (∃ m ∈ nodes[i]?, n.parent = m.parent ∧ n.unit = m.unit ∧ (IsMade m → IsMade n)) ∨
        nodes.size ≤ i ∧ ∃ s, n = bud unit id s := by
    intro i n hn
    by_cases hi : i < nodes.size
    · rw [getElem?_sprout_old unit id fields hi] at hn
      obtain rfl := Option.some.inj hn
      refine .inl ⟨_, Array.getElem?_eq_getElem hi, ?_⟩
      split
      · next heq =>
        subst heq
        have hfields := (hbare _ (Array.getElem?_eq_getElem hi)).2
        refine ⟨rfl, rfl, fun h => ⟨h.kind, ?_⟩⟩
        rw [Holding.keys_toSlots, ← hfields]
        exact Holding.keys_all_sublist _
      · exact ⟨rfl, rfl, fun h => h⟩
    · rw [getElem?_sprout_new unit id fields (Nat.le_of_not_lt hi)] at hn
      obtain ⟨s, -, rfl⟩ := Option.map_eq_some_iff.1 hn
      exact .inr ⟨Nat.le_of_not_lt hi, s, rfl⟩
  refine ⟨fun n hn => ?_, fun i hi n hn => ?_, fun i hi n hn => ?_, fun i hi n hn => ?_⟩
  · rcases hcases root n hn with ⟨m, hm, hparent, -⟩ | ⟨hle, -⟩
    · rw [hparent, h.parent m hm]
    · omega
  · rcases hcases i n hn with ⟨m, hm, -, hunit, -⟩ | ⟨-, s, rfl⟩
    · rw [hunit, h.unit i hi m hm]
    · rfl
  · rcases hcases i n hn with ⟨m, hm, -, -, hmade⟩ | ⟨-, s, rfl⟩
    · exact hmade (h.made i hi m hm)
    · exact ⟨rfl, List.nil_sublist _⟩
  · rcases hcases i n hn with ⟨m, hm, hparent, -⟩ | ⟨hle, s, rfl⟩
    · obtain ⟨p, hp, hmp, k, hk, hmem⟩ := h.linked i hi m hm
      refine ⟨p, hp, hparent.trans hmp, k, ?_, hmem⟩
      obtain ⟨hlt, hval⟩ := Array.getElem?_eq_some_iff.1 hk
      rw [getElem?_sprout_old unit id fields hlt, if_neg, hval]
      · rfl
      · rintro rfl
        rw [Node.children, (hbare k hk).1] at hmem
        simp at hmem
    · refine ⟨id, hroot, rfl, _, getElem?_sprout_old unit id fields hid, ?_⟩
      obtain ⟨hlt, -⟩ := Array.getElem?_eq_some_iff.1 hn
      rw [if_pos rfl, Node.children, Holding.ids_toSlots, List.mem_range'_1]
      rw [size_sprout] at hlt
      exact ⟨hle, hlt⟩

theorem grow {nodes : Array Node} {id : Nat} (h : IsTree nodes unit root) (ho : Ordered nodes) (hroot : root ≤ id)
    (hid : id < nodes.size) (fields : Fields) (hbare : ∀ n ∈ nodes[id]?, n.slots = [] ∧ n.fields = fields) :
    IsTree (Arena.grow unit nodes ho id hid fields).1 unit root := by
  -- the children before `k` have not grown yet
  refine (grow_induction unit nodes ho id hid fields (motive := fun k out => IsTree out unit root ∧
    ∀ i < k, nodes.size ≤ i → out[i]? = (Arena.sprout unit nodes id fields)[i]?) ?_ ?_).1
  · exact ⟨h.sprout hroot hid hbare, fun _ _ _ => rfl⟩
  · rintro k s grown ho hk hle hbud hsub ⟨htree, hsame⟩
    refine ⟨htree.grow ho (by omega) hk s.fields fun n hn => ?_, fun i hi hold => ?_⟩
    · rw [hsame k (Nat.lt_succ_self k) hle, hbud] at hn
      exact Option.some.inj hn ▸ ⟨rfl, rfl⟩
    · rw [getElem?_grow unit grown ho k hk s.fields (by omega) (by omega), hsame i (by omega) hold]
termination_by sizeOf fields

theorem plant (a : Arena) (fields : Fields) (file : Value) (text : String) :
    IsTree (a.plant fields file text).nodes a.units.size a.size := by
  have hseed : (a.nodes.push (seed a.units.size fields))[a.size]? = some (seed a.units.size fields) :=
    Array.getElem?_push_size
  have hlast : ∀ i ≥ a.size, ∀ n ∈ (a.nodes.push (seed a.units.size fields))[i]?,
      i = a.size ∧ n = seed a.units.size fields := by
    intro i hi n hn
    obtain ⟨hlt, -⟩ := Array.getElem?_eq_some_iff.1 hn
    rw [Array.size_push] at hlt
    obtain rfl : i = a.size := Nat.le_antisymm (Nat.le_of_lt_succ hlt) hi
    exact ⟨rfl, (Option.some.inj (hseed.symm.trans hn)).symm⟩
  refine IsTree.grow ⟨fun n hn => ?_, fun i hi n hn => ?_, fun i hi n hn => ?_, fun i hi n hn => ?_⟩ _
    (Nat.le_refl _) _ fields fun n hn => ?_
  · rw [(hlast _ (Nat.le_refl _) n hn).2]
    rfl
  · rw [(hlast i hi n hn).2]
    rfl
  · exact (hlast i hi n hn).2 ▸ ⟨rfl, List.nil_sublist _⟩
  · exact absurd (hlast i (Nat.le_of_lt hi) n hn).1 (Nat.ne_of_gt hi)
  · exact (hlast _ (Nat.le_refl _) n hn).2 ▸ ⟨rfl, rfl⟩

section

variable {a : Arena} {n m : NodeId} (h : IsTree a.nodes unit root)

include h

theorem parent?_root : a.parent? root = none := by
  by_cases hroot : root < a.size
  · exact h.parent _ (getElem?_nodes hroot)
  · rw [parent?, node_of_not_lt hroot]
    rfl

theorem exists_parent? (hn : root < n) (hlt : n < a.size) : ∃ p ≥ root, a.parent? n = some p ∧ n ∈ a.children p := by
  obtain ⟨p, hp, hparent, m, hm, hmem⟩ := h.linked n hn _ (getElem?_nodes hlt)
  have hnode := getElem?_nodes (Array.getElem?_eq_some_iff.1 hm).1
  rw [Option.some.inj (hm.symm.trans hnode)] at hmem
  exact ⟨p, hp, hparent, hmem⟩

theorem below_root {n : Nat} (hn : root ≤ n) (hlt : n < a.size) : a.Below root n := by
  rcases Nat.eq_or_lt_of_le hn with rfl | hn
  · exact .refl
  · obtain ⟨p, hp, hparent, -⟩ := h.exists_parent? hn hlt
    have := a.lt_of_parent? hparent
    exact (below_root hp (Nat.lt_trans this hlt)).tail hparent
termination_by n

theorem mem_walk_iff_below (hm : root ≤ m) : n ∈ a.walk m ↔ a.Below m n := by
  refine ⟨below_of_mem_walk, fun hbelow => mem_walk_of_below hbelow fun c p hc hp => ?_⟩
  obtain ⟨q, -, hq, hmem⟩ := h.exists_parent? (Nat.lt_of_le_of_lt hm hc) (lt_size_of_parent? hp)
  obtain rfl := Option.some.inj (hp.symm.trans hq)
  exact hmem

theorem perm_walk_root (hroot : root < a.size) : (a.walk root).Perm (List.range' root (a.size - root)) := by
  refine (List.perm_ext_iff_of_nodup (a.nodup_walk root) List.nodup_range').2 fun n => ?_
  rw [h.mem_walk_iff_below (Nat.le_refl root), List.mem_range'_1, Nat.add_sub_of_le (Nat.le_of_lt hroot)]
  refine ⟨fun hn => ⟨hn.le, ?_⟩, fun hn => h.below_root hn.1 hn.2⟩
  cases hn with
  | refl => exact hroot
  | tail _ hp => exact lt_size_of_parent? hp

end

end IsTree

theorem size_lt_plant (a : Arena) (fields : Fields) (file : Value) (text : String) :
    a.size < (a.plant fields file text).size := by
  refine Nat.lt_of_lt_of_le ?_ (grow a.units.size (a.nodes.push (seed a.units.size fields))
    (ordered_push a.ordered) a.nodes.size (by simp) fields).2.2
  rw [Array.size_push]
  exact Nat.lt_succ_self _

theorem units_plant (a : Arena) (fields : Fields) (file : Value) (text : String) :
    (a.plant fields file text).units = a.units.push ⟨file, text.toList, a.size⟩ := by
  rfl

theorem node_plant (a : Arena) (fields : Fields) (file : Value) (text : String) {n : NodeId} (hn : n < a.size) :
    (a.plant fields file text).node n = a.node n := by
  have hgrow : (a.plant fields file text).nodes[n]? = (a.nodes.push (seed a.units.size fields))[n]? :=
    getElem?_grow _ _ _ _ _ _ (by rw [Array.size_push]; exact Nat.lt_succ_of_lt hn) (Nat.ne_of_gt hn)
  rw [node, Array.getD_eq_getD_getElem?, hgrow, Array.getElem?_push_lt hn, node, Array.getD_eq_getD_getElem?,
    Array.getElem?_eq_getElem hn]

theorem exists_plant_of_add {a b : Arena} {s : Source} (h : a.add s = .ok b) :
    ∃ fields file text, b = a.plant fields file text := by
  unfold add at h
  split at h
  · simp at h
  · obtain ⟨text, -, h⟩ := Outcome.bind_eq_ok.1 h
    dsimp only at h
    split at h
    · simp at h
    · exact ⟨_, _, _, (Except.ok.inj h).symm⟩

theorem ofSources_induction {motive : Arena → Prop} {sources : List Source} (h : ofSources sources = .ok a)
    (start : motive empty)
    (step : ∀ a fields file text, motive a → motive (a.plant fields file text)) : motive a := by
  obtain ⟨-, -, h⟩ := Outcome.bind_eq_ok.1 h
  generalize sources.foldl (fun ts s => s.insert ts) [] = trees at h
  generalize empty = first at h start
  induction trees generalizing first with
  | nil =>
    rw [List.foldlM_nil, Outcome.pure_eq_ok] at h
    exact h ▸ start
  | cons s rest ih =>
    obtain ⟨next, hnext, h⟩ := Outcome.bind_eq_ok.1 h
    obtain ⟨fields, file, text, rfl⟩ := exists_plant_of_add hnext
    exact ih _ h (step _ fields file text start)

namespace IsRooted

variable {a : Arena}

theorem empty : Arena.empty.IsRooted where
  nodup := List.nodup_nil
  inside := by simp [Arena.empty]
  parent := by simp [Arena.empty]

theorem plant (h : a.IsRooted) (fields : Fields) (file : Value) (text : String) :
    (a.plant fields file text).IsRooted := by
  have hunits := (congrArg Array.toList (units_plant a fields file text)).trans Array.toList_push
  refine ⟨?_, ?_, ?_⟩
  · rw [hunits, List.map_append]
    refine h.nodup.append (List.nodup_singleton _) fun r hr hnew => ?_
    obtain ⟨u, hu, rfl⟩ := List.mem_map.1 hr
    have heq : u.root = a.size := by simpa using hnew
    exact Nat.lt_irrefl _ (heq ▸ h.inside u hu)
  · intro u hu
    have hlt := size_lt_plant a fields file text
    rw [hunits, List.mem_append, List.mem_singleton] at hu
    rcases hu with hu | rfl
    · exact Nat.lt_trans (h.inside u hu) hlt
    · exact hlt
  · intro u hu
    rw [hunits, List.mem_append, List.mem_singleton] at hu
    rcases hu with hu | rfl
    · rw [parent?, node_plant a fields file text (h.inside u hu)]
      exact h.parent u hu
    · exact (IsTree.plant a fields file text).parent?_root

theorem ofSources {sources : List Source} (h : Arena.ofSources sources = .ok a) : a.IsRooted :=
  ofSources_induction h empty fun _ fields file text h => h.plant fields file text

end IsRooted

/-- Each node that has a parent is held by it. -/
structure IsLinked (a : Arena) : Prop where
  listed : ∀ n p, a.parent? n = some p → n ∈ a.children p
  made : ∀ n < a.size, IsMade (a.node n)

namespace IsLinked

theorem plant (h : a.IsLinked) (fields : Fields) (file : Value) (text : String) :
    (a.plant fields file text).IsLinked := by
  have htree := IsTree.plant a fields file text
  refine ⟨fun n p hp => ?_, fun n hn => ?_⟩
  · by_cases hold : n < a.size
    · have hlt := lt_of_parent? hp
      rw [parent?, node_plant a fields file text hold] at hp
      rw [children, node_plant a fields file text (Nat.lt_trans hlt hold)]
      exact h.listed n p hp
    · have hne : a.size ≠ n := by
        rintro rfl
        simp [htree.parent?_root] at hp
      have hlt := Nat.lt_of_le_of_ne (Nat.le_of_not_lt hold) hne
      obtain ⟨q, -, hq, hmem⟩ := htree.exists_parent? hlt (lt_size_of_parent? hp)
      exact Option.some.inj (hq.symm.trans hp) ▸ hmem
  · by_cases hold : n < a.size
    · rw [node_plant a fields file text hold]
      exact h.made n hold
    · exact htree.made n (Nat.le_of_not_lt hold) _ (getElem?_nodes hn)

theorem ofSources {sources : List Source} (h : Arena.ofSources sources = .ok a) : a.IsLinked := by
  refine ofSources_induction h ⟨fun n p hp => ?_, fun n hn => ?_⟩ fun _ fields file text h => h.plant fields file text
  · exact absurd (lt_size_of_parent? hp) (Nat.not_lt_zero n)
  · exact absurd hn (Nat.not_lt_zero n)

end IsLinked

/--
Adding a tree leaves the trees before it as they are. The nodes of the new one are numbered as they stand in the arena,
its root first, and every other node is listed once, by its parent, which stands before it. The walk from the root is
the pre-order of the tree and visits each node once, and walks go where `isInside` says.
-/
theorem added_tree_is_walked_in_preorder {a b : Arena} {s : Source} (h : a.add s = .ok b) :
    (∀ n < a.size, b.node n = a.node n) ∧
      a.size < b.size ∧ (b.units.getD a.units.size default).root = a.size ∧
      (∀ n < b.size, a.size ≤ n → (b.node n).unit = a.units.size ∧ b.localIndex n = n - a.size) ∧
      b.parent? a.size = none ∧ (∀ p, a.size ∉ b.children p) ∧
      (∀ n < b.size, a.size < n → ∃ p < n, a.size ≤ p ∧ b.parent? n = some p ∧
        ∀ q, (b.children q).count n = if q = p then 1 else 0) ∧
      (∀ n, b.walk n = b.preorder n) ∧
      (b.walk a.size).Perm (List.range' a.size (b.size - a.size)) ∧
      ∀ n < b.size, a.size ≤ n → ∀ m < b.size, a.size ≤ m → (b.isInside n m = true ↔ n ∈ b.walk m) := by
  obtain ⟨fields, file, text, rfl⟩ := exists_plant_of_add h
  have htree := IsTree.plant a fields file text
  have hlt := size_lt_plant a fields file text
  have hroot : ((a.plant fields file text).units.getD a.units.size default).root = a.size := by
    rw [units_plant, Array.getD_eq_getD_getElem?, Array.getElem?_push_size]
    rfl
  refine ⟨fun n hn => node_plant a fields file text hn, hlt, hroot, fun n hn hle => ?_, htree.parent?_root,
    fun p hp => ?_, fun n hn hle => ?_, walk_eq_preorder _, htree.perm_walk_root hlt, fun n hn hle m _ hm => ?_⟩
  · have hunit := htree.unit n hle _ (getElem?_nodes hn)
    exact ⟨hunit, by rw [localIndex, hunit, hroot]⟩
  · exact Option.some_ne_none p ((parent?_of_mem_children hp).symm.trans htree.parent?_root)
  · obtain ⟨p, hp, hparent, hmem⟩ := htree.exists_parent? hle hn
    refine ⟨p, lt_of_parent? hparent, hp, hparent, fun q => ?_⟩
    split
    · next heq => exact heq ▸ List.count_eq_one_of_mem (nodup_children _ _) hmem
    · next hne =>
      refine List.count_eq_zero.2 fun hq => hne ?_
      exact Option.some.inj ((parent?_of_mem_children hq).symm.trans hparent)
  · rw [isInside_iff, htree.mem_walk_iff_below hm]

end Arena

namespace Scattered

def leaf : Value :=
  .object [("nodeType", "Identifier")]

/-- The fields of a known kind that stand in another order than its children, and an unknown kind twice. -/
def fields : Fields :=
  [("nodeType", "IfStatement"),
    ("trueBody", .object [("nodeType", "Odd"), ("parts", .list [.null, leaf]), ("last", leaf)]),
    ("condition", .object [("nodeType", "Odd"), ("typeDescriptions", leaf), ("first", leaf)])]

def arena : Arena :=
  Arena.empty.plant fields "sample.sol" ""

/-- All children of a node are numbered before those of its last child, and these before those of its first. -/
theorem walk_from_root : Arena.empty.add ⟨"sample.sol", .object fields, ""⟩ = .ok arena ∧
    arena.walk 0 = [0, 1, 5, 2, 3, 4] ∧ (arena.walk 0).Perm (List.range' 0 arena.size) ∧
    (arena.isInside 5 1 = true ↔ 5 ∈ arena.walk 1) := by
  have hadd : Arena.empty.add ⟨"sample.sol", .object fields, ""⟩ = .ok arena :=
    if_neg (by decide +kernel : ¬ arena.nodes.any Arena.badKind = true)
  obtain ⟨-, -, -, -, -, -, -, -, hperm, hinside⟩ := Arena.added_tree_is_walked_in_preorder hadd
  exact ⟨hadd, by decide +kernel, hperm, hinside 5 (by decide +kernel) (by decide) 1 (by decide +kernel) (by decide)⟩

end Scattered

end ContractFlow
