import ContractFlow.Modifier.Lock
import ContractFlow.Proofs.Control.Exact
import ContractFlow.Proofs.Control.Precedence
import ContractFlow.Proofs.Program.Owner
import ContractFlow.Session

/-!
This module shows what is known of a lock: it writes a state variable that was checked before, but a run need not come
from that write to a placeholder.
-/

namespace ContractFlow

namespace ControlGraph

def Follows (g : ControlGraph) (x y : NodeId) : Prop :=
  ∃ i j, g.pointAt? x = some i ∧ g.isLive i = true ∧ g.pointAt? y = some j ∧ g.strictlyReaches i j = true

variable {g : ControlGraph} {path : List Nat} {i j : Nat}

theorem node?_of_pointAt? {n : NodeId} (h : g.pointAt? n = some i) : g.node? i = some n := by
  have hfound := List.find?_some h
  exact beq_iff_eq.1 hfound

theorem Run.exists_transGen (h : g.Run path i) (hj : Relation.TransGen (fun i j => j ∈ g.next i) i j) :
    ∃ mid, g.Run (path ++ mid ++ [j]) j := by
  induction hj with
  | single hnext => exact ⟨[], by simpa using h.step hnext⟩
  | tail _ hnext ih =>
    obtain ⟨mid, hmid⟩ := ih
    exact ⟨mid ++ [_], by simpa using hmid.step hnext⟩

end ControlGraph

namespace ControlFlow

variable {c : ControlFlow} {f : CallableId} {g : ControlGraph} {x y : NodeId}

theorem follows_iff_performs (hg : (c.controlGraph? false f).outcome = .ok (some g)) : g.Follows x y ↔
    ∃ u t, c.arena.Performs ((c.callableD f).body.toList.map (.execute false)) (u ++ x :: (t ++ [y])) .underway := by
  have hsound := sound_of_controlGraph? hg
  have hperforms (w : List NodeId) : c.arena.Performs ((c.callableD f).body.toList.map (.execute false)) w .underway ↔
      ∃ path i, g.Run path i ∧ g.trace path = w := by
    rw [eq_of_controlGraph? hg, ControlGraph.runs_iff, Arena.performs_execute_iff, Arena.tasksTraces_body]
    rfl
  have hpoint {i : Nat} {n : NodeId} (hi : g.node? i = some n) : g.pointAt? n = some i :=
    ControlGraph.pointAt?_eq_some (fun j hj => point_unique hg hj hi) hi
  constructor
  · rintro ⟨i, j, hi, hlive, hj, hreach⟩
    obtain ⟨path, hpath⟩ := (ControlGraph.exists_run_iff hsound).2 hlive
    obtain ⟨front, rfl⟩ := hpath.eq_append
    obtain ⟨mid, hrun⟩ := hpath.exists_transGen ((ControlGraph.strictlyReaches_iff hsound).1 hreach)
    refine ⟨g.trace front, g.trace mid, (hperforms _).2 ⟨_, _, hrun, ?_⟩⟩
    have htrace {i : Nat} {n : NodeId} (hi : g.pointAt? n = some i) : g.trace [i] = [n] := by
      rw [ControlGraph.trace, List.filterMap_cons, ControlGraph.node?_of_pointAt? hi]
      rfl
    rw [ControlGraph.trace_append, ControlGraph.trace_append, ControlGraph.trace_append, htrace hi, htrace hj]
    simp
  · rintro ⟨u, t, h⟩
    obtain ⟨path, k, hrun, htrace⟩ := (hperforms _).1 h
    obtain ⟨front, i, back, rfl, hi, -, hback⟩ := ControlGraph.exists_of_trace_eq htrace
    obtain ⟨mid, j, rest, rfl, hj, -, -⟩ := ControlGraph.exists_of_trace_eq hback
    have hupto : g.Run (front ++ i :: (mid ++ [j])) j := by
      rw [← List.cons_append, ← List.append_assoc] at hrun ⊢
      exact hrun.upTo
    refine ⟨i, j, hpoint hi, hupto.isLive hsound (by simp), hpoint hj, ?_⟩
    exact (ControlGraph.strictlyReaches_iff hsound).2 (hupto.transGen (by simp))

end ControlFlow

namespace Arena

variable {a : Arena} {n x y : NodeId} {before rest : List NodeId}

theorem exists_below_of_mem_tasksTraces {ns : List NodeId} {w : List NodeId} {e : Ending}
    (hw : w ∈ a.tasksTraces (ns.map (.execute false)) e) (hx : x ∈ w) : ∃ s ∈ ns, a.Below s x := by
  rw [tasksTraces_execute] at hw
  have hvisit := Control.mem_visits_of_mem_traces hw hx
  rw [Control.visits_all] at hvisit
  obtain ⟨k, hk, hvisit⟩ := List.mem_flatMap.1 hvisit
  obtain ⟨s, hs, rfl⟩ := List.mem_map.1 hk
  exact ⟨s, hs, (a.stays_statementControl false s).below x hvisit⟩

/--
A placeholder among the statements of a block is come to past a node in front of it just if the statements in front
of it can be run through past that node.
-/
theorem performs_block_iff (hkind : a.kind n = .block ∨ a.kind n = .uncheckedBlock)
    (hitems : a.items n "statements" = before ++ y :: rest) (hy : a.kind y = .placeholderStatement)
    (hx : ∃ s ∈ before, a.Below s x) :
    (∃ u t, a.Performs [.execute false n] (u ++ x :: (t ++ [y])) .underway) ↔
      ∃ u t, a.Performs (before.map (.execute false)) (u ++ x :: t) .falls := by
  have hapart {s s' m : NodeId} (hs : s ∈ before) (hs' : s' ∈ y :: rest) (hm : a.Below s m)
      (hm' : a.Below s' m) : False := by
    have hnodup := hitems ▸ a.nodup_items n "statements"
    have hparent {s : NodeId} (hs : s ∈ before ++ y :: rest) : a.parent? s = some n :=
      (parent?_of_mem_items (hitems ▸ hs)).1
    apply List.disjoint_of_nodup_append hnodup hs
    rwa [hm.unique hm' (hparent (List.mem_append_left _ hs)) (hparent (List.mem_append_right _ hs'))]
  have htraces (w : List NodeId) : a.Performs [.execute false n] w .underway ↔
      w ∈ (a.tasksTraces (before.map (.execute false))).seq (a.tasksTraces ((y :: rest).map (.execute false)))
        .underway := by
    rw [← tasksTraces_append, ← List.map_append, ← hitems]
    have hunfold := a.taskTraces_execute (.block (l := false) hkind) (by rcases hkind with h | h <;> simp [h])
    rw [← hunfold, ← tasksTraces_singleton]
    rw [← List.map_singleton, performs_execute_iff]
  simp only [htraces, Behaviour.mem_seq_iff, performs_execute_iff]
  obtain ⟨s, hs, hx⟩ := hx
  constructor
  · rintro ⟨u, t, ⟨-, hw⟩ | ⟨w, hw, v, hv, hwv⟩⟩
    · obtain ⟨s', hs', hy'⟩ := exists_below_of_mem_tasksTraces (x := y) hw (by simp)
      exact (hapart hs' List.mem_cons_self hy' .refl).elim
    · rcases List.append_eq_append_iff.1 hwv with ⟨as, rfl, hv'⟩ | ⟨bs, rfl, hv'⟩
      · obtain ⟨s', hs', hx'⟩ := exists_below_of_mem_tasksTraces (x := x) hv (by simp [hv'])
        exact (hapart hs hs' hx hx').elim
      · cases bs with
        | nil =>
          rw [List.nil_append] at hv'
          obtain ⟨s', hs', hx'⟩ := exists_below_of_mem_tasksTraces (x := x) hv (hv' ▸ List.mem_cons_self)
          exact (hapart hs hs' hx hx').elim
        | cons b bs =>
          obtain ⟨rfl, -⟩ := List.cons.inj hv'
          exact ⟨u, bs, hw⟩
  · rintro ⟨u, t, hw⟩
    have hvisit : a.Performs ((y :: rest).map (.execute false)) [y] .underway :=
      .unfold (.other (by rw [hy]; rfl)) (.visit .cut)
    exact ⟨u, t, .inr ⟨_, hw, _, hvisit.mem_tasksTraces, by simp⟩⟩

end Arena

theorem exists_of_flatten_eq {α β : Type} {r : α → List β → Prop} {xs : List α} {parts : List (List β)}
    (h : List.Forall₂ r xs parts) {front back : List β} {y : β} (hflat : parts.flatten = front ++ y :: back) :
    ∃ early x late parts' front' back', xs = early ++ x :: late ∧ List.Forall₂ r early parts' ∧
      r x (front' ++ y :: back') ∧ front = parts'.flatten ++ front' := by
  induction h generalizing front with
  | nil => simp at hflat
  | @cons x part xs parts hx hparts ih =>
    have hlater (rest : List β) (hrest : front = part ++ rest) (hflat : parts.flatten = rest ++ y :: back) :
        ∃ early x' late parts' front' back', x :: xs = early ++ x' :: late ∧ List.Forall₂ r early parts' ∧
          r x' (front' ++ y :: back') ∧ front = parts'.flatten ++ front' := by
      obtain ⟨early, x', late, parts', front', back', rfl, hearly, hx', rfl⟩ := ih hflat
      exact ⟨x :: early, x', late, part :: parts', front', back', rfl, .cons hx hearly, hx', by simp [hrest]⟩
    rcases List.append_eq_append_iff.1 hflat with ⟨rest, hrest, hflat⟩ | ⟨rest, rfl, hrest⟩
    · exact hlater rest hrest hflat
    · cases rest with
      | nil => exact hlater [] (by simp) hrest.symm
      | cons z rest =>
        obtain ⟨rfl, -⟩ := List.cons.inj hrest
        exact ⟨[], x, xs, [], front, rest, rfl, .nil, hx, rfl⟩

def Arena.IsRequirement (a : Arena) (call : NodeId) : Prop :=
  ∃ callee, a.callee? call = some callee ∧ a.kind callee = .identifier ∧
    (a.text callee = .text "require" ∨ a.text callee = .text "assert")

theorem Arena.isRequirement_of_isAmong {a : Arena} {call callee : NodeId}
    (hcallee : (a.callee? call).filter (fun c => a.kind c == .identifier) = some callee)
    (h : (a.text callee).isAmong ["require", "assert"] = .ok true) : a.IsRequirement call := by
  obtain ⟨hcallee, hkind⟩ := Option.filter_eq_some_iff.1 hcallee
  obtain ⟨word, hword, htext⟩ := Value.exists_text_of_isAmong h
  refine ⟨callee, hcallee, beq_iff_eq.1 hkind, ?_⟩
  rw [htext]
  simpa using hword

namespace Program

variable (p : Program)

/-- The condition that a statement checks: that of an `if`, or what is required to hold. -/
inductive IsCondition : NodeId → NodeId → Prop
  | branch {s c : NodeId} : p.arena.kind s = .ifStatement → p.arena.child? s "condition" = some c → IsCondition s c
  | required {s call c : NodeId} : p.arena.kind s = .expressionStatement →
      p.arena.child? s "expression" = some call → p.arena.kind call = .functionCall → p.arena.IsRequirement call →
      (p.arena.callArguments call).head? = some c → IsCondition s c

def Checks (v s : NodeId) : Prop :=
  ∃ c m, p.IsCondition s c ∧ p.arena.Below c m ∧ p.findVariable m = .ok (some v)

/-- An assignment to the state variable `v` or a part of it, or an increment or a decrement. -/
def WritesState (v w : NodeId) : Prop :=
  p.isState v = true ∧ ∃ target, p.writtenTarget? w = some target ∧ p.findRoot target = .ok (some v)

variable {p} {v s c : NodeId}

theorem isCondition_of_checkedCondition (h : p.checkedCondition s = .ok (some c)) : p.IsCondition s c := by
  unfold checkedCondition at h
  simp only at h
  split at h
  · next hkind => exact .branch hkind (Except.ok.inj h)
  · next hkind =>
    split at h
    · cases h
    · next call hcall =>
      obtain ⟨hcall, hfunction⟩ := Option.filter_eq_some_iff.1 hcall
      unfold requiredCondition at h
      simp only at h
      split at h
      · cases h
      · next callee hcallee =>
        obtain ⟨isCheck, hcheck, h⟩ := Outcome.bind_eq_ok.1 h
        cases isCheck with
        | false => cases h
        | true =>
          exact .required hkind hcall (beq_iff_eq.1 hfunction) (Arena.isRequirement_of_isAmong hcallee hcheck)
            (Outcome.pure_eq_ok.1 h)
  · cases h

theorem checks_of_mem_checkedVariables {vs : List NodeId} (h : p.checkedVariables s = .ok vs) (hv : v ∈ vs) :
    p.Checks v s := by
  obtain ⟨condition, hcondition, h⟩ := Outcome.bind_eq_ok.1 h
  cases condition with
  | none =>
    obtain rfl := Outcome.pure_eq_ok.1 h
    cases hv
  | some c =>
    obtain ⟨m, hm, hstate⟩ := (Outcome.mem_of_filterMapM_eq_ok h v).1 hv
    obtain ⟨found, hfound, hstate⟩ := Outcome.bind_eq_ok.1 hstate
    obtain ⟨rfl, -⟩ := Option.filter_eq_some_iff.1 (Outcome.pure_eq_ok.1 hstate)
    exact ⟨c, m, isCondition_of_checkedCondition hcondition, Arena.below_of_mem_walk hm, hfound⟩

theorem exists_writesState_of_mem_stateTargets {vs : List NodeId} (h : p.stateTargets s = .ok vs) (hv : v ∈ vs) :
    ∃ w, p.arena.Below s w ∧ p.WritesState v w := by
  obtain ⟨target, htarget, hstate⟩ := (Outcome.mem_of_filterMapM_eq_ok h v).1 hv
  obtain ⟨root, hroot, hstate⟩ := Outcome.bind_eq_ok.1 hstate
  obtain ⟨rfl, hv⟩ := Option.filter_eq_some_iff.1 (Outcome.pure_eq_ok.1 hstate)
  obtain ⟨w, hw, htarget⟩ := List.mem_filterMap.1 htarget
  exact ⟨w, Arena.below_of_mem_walk hw, hv, target, htarget, hroot⟩

theorem exists_of_setsChecked {checked stmts : List NodeId} (h : p.setsChecked checked stmts = .ok true) :
    ∃ front s back v w, stmts = front ++ s :: back ∧ (v ∈ checked ∨ ∃ k ∈ front ++ [s], p.Checks v k) ∧
      p.arena.Below s w ∧ p.WritesState v w := by
  induction stmts generalizing checked with
  | nil => cases h
  | cons s stmts ih =>
    obtain ⟨vs, hvs, h⟩ := Outcome.bind_eq_ok.1 h
    obtain ⟨targets, htargets, h⟩ := Outcome.bind_eq_ok.1 h
    have hchecked {v : NodeId} (hv : v ∈ checked ++ vs) : v ∈ checked ∨ p.Checks v s := by
      rcases List.mem_append.1 hv with hv | hv
      · exact .inl hv
      · exact .inr (checks_of_mem_checkedVariables hvs hv)
    split at h
    · next hany =>
      obtain ⟨v, hv, hmem⟩ := List.any_eq_true.1 hany
      obtain ⟨w, hw, hwrites⟩ := exists_writesState_of_mem_stateTargets htargets hv
      refine ⟨[], s, stmts, v, w, rfl, ?_, hw, hwrites⟩
      exact (hchecked (List.contains_iff_mem.1 hmem)).imp_right fun hs => ⟨s, by simp, hs⟩
    · obtain ⟨front, s', back, v, w, rfl, hv, hw, hwrites⟩ := ih h
      refine ⟨s :: front, s', back, v, w, rfl, ?_, hw, hwrites⟩
      rcases hv with hv | ⟨k, hk, hchecks⟩
      · exact (hchecked hv).imp_right fun hs => ⟨s, by simp, hs⟩
      · exact .inr ⟨k, List.mem_cons_of_mem _ hk, hchecks⟩

end Program

namespace Linkage

variable (l : Linkage)

/--
The statements that are looked at in place of the statement `n`, and where what is found in them comes in it: its
own, or those of a helper, in which all comes at the call.
-/
inductive Shows (n : NodeId) : List NodeId → (NodeId → NodeId) → Prop
  | itself : Shows n [n] id
  | helper {call body : NodeId} {edges : List CallEdge} {edge : CallEdge} {f : CallableId} :
      l.arena.kind n = .expressionStatement → l.arena.child? n "expression" = some call →
      l.arena.kind call = .functionCall → (l.edges call).outcome = .ok edges → edge ∈ edges →
      edge.isExternal = false → edge.callee = some f → (l.callableD f).body = some body →
      Shows n (l.arena.items body "statements") fun _ => call

/-- A write to the state variable `v` that comes at `x` in the statements `before`, behind a check of `v`. -/
def SetsFlag (before : List NodeId) (v x : NodeId) : Prop :=
  ∃ early n late parts front s back site w, before = early ++ n :: late ∧
    List.Forall₂ (fun n part => ∃ site, l.Shows n part site) early parts ∧ l.Shows n (front ++ s :: back) site ∧
    (∃ k ∈ parts.flatten ++ front ++ [s], l.Checks v k) ∧ l.arena.Below s w ∧ l.WritesState v w ∧ x = site w

variable {l} {before : List NodeId} {n v x : NodeId}

theorem shows_of_inlined {part : List NodeId} (h : (l.inlined n).outcome = .ok part) : ∃ site, l.Shows n part site := by
  unfold inlined at h
  simp only at h
  split at h
  · obtain rfl := Except.ok.inj h
    exact ⟨_, .itself⟩
  · next e he =>
    split at h
    · obtain rfl := Except.ok.inj h
      exact ⟨_, .itself⟩
    · next hkind =>
      obtain ⟨edges, hedges, h⟩ := Query.outcome_bind_eq_ok.1 h
      split at h
      · next body hbody =>
        obtain rfl := Except.ok.inj h
        have hmem : body ∈ [body] := List.mem_singleton_self body
        rw [← hbody] at hmem
        obtain ⟨edge, hedge, hcallee⟩ := List.mem_filterMap.1 hmem
        split at hcallee
        · cases hcallee
        · next hexternal =>
          obtain ⟨f, hf, hbody⟩ := Option.bind_eq_some_iff.1 hcallee
          split at he
          · next hstmt =>
            exact ⟨_, .helper (beq_iff_eq.1 hstmt) he (by simpa using hkind) hedges hedge (by simpa using hexternal) hf
              hbody⟩
          · cases he
      · obtain rfl := Except.ok.inj h
        exact ⟨_, .itself⟩

theorem SetsFlag.exists_below (h : l.SetsFlag before v x) : ∃ s ∈ before, l.arena.Below s x := by
  obtain ⟨early, n, late, parts, front, s, back, site, w, rfl, -, hshows, -, hw, -, rfl⟩ := h
  refine ⟨n, by simp, ?_⟩
  generalize hpart : front ++ s :: back = part at hshows
  cases hshows with
  | itself =>
    cases front with
    | nil =>
      obtain ⟨rfl, -⟩ := List.cons.inj hpart
      exact hw
    | cons k front => simp at hpart
  | helper _ hcall => exact .single (Arena.parent?_of_child? hcall).1

theorem exists_setsFlag_of_isLock {m : CallableId} (h : (l.isLock m).outcome = .ok true) :
    ∃ body, (l.callableD m).body = some body ∧ ∃ v x, l.SetsFlag (l.statementsBefore body) v x := by
  unfold isLock at h
  split at h
  · next body _ hbody =>
    obtain ⟨parts, hparts, h⟩ := Query.outcome_bind_eq_ok.1 h
    rw [Query.outcome_mapM] at hparts
    have hshows := (Outcome.forall₂_of_mapM_eq_ok hparts).imp fun n part => shows_of_inlined
    obtain ⟨front, s, back, v, w, hflat, hv, hw, hwrites⟩ := Program.exists_of_setsChecked h
    have hchecked := hv.resolve_left List.not_mem_nil
    obtain ⟨early, n, late, parts', front', back', hbefore, hearly, ⟨site, hn⟩, rfl⟩ :=
      exists_of_flatten_eq hshows hflat
    exact ⟨body, hbody, v, site w, early, n, late, parts', front', s, back', site, w, hbefore, hearly, hn, hchecked, hw,
      hwrites, rfl⟩
  · cases h

end Linkage

/--
A modifier that counts as a lock checks a flag of the state and then sets it, in front of its first placeholder. A
placeholder follows just if an execution passes them in this order; for the first one, just if the statements in front
of it can be run through past the place where the flag is set.
-/
theorem ControlFlow.lock_sets_flag_unless_left (c : ControlFlow) {m : CallableId}
    (hlock : (c.isLock m).outcome = .ok true) {g : ControlGraph}
    (hg : (c.controlGraph? false m).outcome = .ok (some g)) :
    ∃ body, (c.callableD m).body = some body ∧ (∃ v x, c.SetsFlag (c.statementsBefore body) v x) ∧
      ∀ v x, c.SetsFlag (c.statementsBefore body) v x →
        (∀ y, g.Follows x y ↔
          ∃ u t, c.arena.Performs [.execute false body] (u ++ x :: (t ++ [y])) .underway) ∧
        ∀ y rest, c.arena.kind body = .block → c.arena.kind y = .placeholderStatement →
          c.arena.items body "statements" = c.statementsBefore body ++ y :: rest →
          (g.Follows x y ↔
            ∃ u t, c.arena.Performs ((c.statementsBefore body).map (.execute false)) (u ++ x :: t) .falls) := by
  obtain ⟨body, hbody, hsets⟩ := Linkage.exists_setsFlag_of_isLock hlock
  refine ⟨body, hbody, hsets, fun v x hx => ?_⟩
  have hfollows (y : NodeId) : g.Follows x y ↔
      ∃ u t, c.arena.Performs [.execute false body] (u ++ x :: (t ++ [y])) .underway := by
    rw [follows_iff_performs hg, hbody]
    rfl
  refine ⟨hfollows, fun y rest hkind hy hitems => ?_⟩
  rw [hfollows, Arena.performs_block_iff (.inl hkind) hitems hy hx.exists_below]

/-!
Two modifiers that both count as locks: `if (locked) _; locked = locked;` and
`require(locked); locked = locked; _;`.
-/

namespace Gate

open Sample

def mention (parent : NodeId) (role : String) : Node :=
  node .identifier (some parent) role [] [("name", .text "locked"), ("referencedDeclaration", .int 2)]

def nodes : Array Node := #[
  unit [1],
  contract "A" [] [2, 3, 4],
  node .variableDeclaration (some 1) "nodes" []
    [("id", .int 2), ("name", .text "locked"), ("stateVariable", .bool true)],
  bodied .modifierDefinition 1 5 "late",
  bodied .modifierDefinition 1 13 "lock",
  block 3 [6, 9],
  node .ifStatement (some 5) "statements" [("condition", .one 7), ("trueBody", .one 8)] [],
  mention 6 "condition",
  node .placeholderStatement (some 6) "trueBody" [] [],
  statement 5 10,
  assign 9 11 12,
  mention 10 "leftHandSide",
  mention 10 "rightHandSide",
  block 4 [14, 18, 22],
  statement 13 15,
  call 14 16 [17],
  identifier 15 "expression" "require",
  mention 15 "arguments",
  statement 13 19,
  assign 18 20 21,
  mention 19 "leftHandSide",
  mention 19 "rightHandSide",
  node .placeholderStatement (some 13) "statements" [] []]

def arena : Arena :=
  arenaOf nodes (by decide +kernel)

def program : ControlFlow :=
  (Session.analyse arena {} {}).toControlFlow

def graph (m : CallableId) : ControlGraph :=
  .ofLayers m [] (program.control m)

theorem setsFlag : program.SetsFlag [6, 9] 2 10 ∧ program.SetsFlag [14, 18] 2 19 := by
  have hvalues : program.isState 2 = true ∧ program.findVariable 7 = .ok (some 2) ∧
      program.findVariable 17 = .ok (some 2) ∧ program.findRoot 11 = .ok (some 2) ∧
      program.findRoot 20 = .ok (some 2) ∧ program.arena.callee? 15 = some 16 := by
    decide +kernel
  obtain ⟨hstate, hcondition, hargument, hlate, hlock, hcallee⟩ := hvalues
  constructor
  · refine ⟨[6], 9, [], [[6]], [], 9, [], id, 10, rfl, .cons ⟨_, .itself⟩ .nil, .itself, ⟨6, by simp, ?_⟩,
      .single rfl, ⟨hstate, 11, rfl, hlate⟩, rfl⟩
    exact ⟨7, 7, .branch rfl rfl, .refl, hcondition⟩
  · refine ⟨[14], 18, [], [[14]], [], 18, [], id, 19, rfl, .cons ⟨_, .itself⟩ .nil, .itself, ⟨14, by simp, ?_⟩,
      .single rfl, ⟨hstate, 20, rfl, hlock⟩, rfl⟩
    exact ⟨17, 17, .required rfl rfl rfl ⟨16, hcallee, rfl, .inl rfl⟩ rfl, .refl, hargument⟩

/-- The one sets the flag where no execution comes to its placeholder any more, the other in front of it. -/
theorem flag_is_set_behind_placeholder :
    (program.isLock 0).outcome = .ok true ∧ program.SetsFlag (program.statementsBefore 5) 2 10 ∧
      (¬ ∃ u t, program.arena.Performs [.execute false 5] (u ++ 10 :: (t ++ [8])) .underway) ∧
      (program.isLock 1).outcome = .ok true ∧ program.SetsFlag (program.statementsBefore 13) 2 19 ∧
      ∃ u t, program.arena.Performs [.execute false 14, .execute false 18] (u ++ 19 :: t) .falls := by
  have hlocks : (program.isLock 0).outcome = .ok true ∧ (program.isLock 1).outcome = .ok true := by
    decide +kernel
  have hgraph (m : CallableId) (hm : program.plan.control.contains (program.qualifiedName m) = false) :
      (program.controlGraph? false m).outcome = .ok (some (graph m)) :=
    ControlFlow.outcome_controlGraph? hm rfl
  have hpoints : (graph 0).pointAt? 10 = some 8 ∧ (graph 0).pointAt? 8 = some 4 ∧
      (graph 0).strictlyReaches 8 4 = false ∧ (graph 1).pointAt? 19 = some 8 ∧ (graph 1).pointAt? 22 = some 10 ∧
      (graph 1).isLive 8 = true ∧ (graph 1).strictlyReaches 8 10 = true := by
    decide +kernel
  obtain ⟨hlate, hhole, hnever, hset, hplaceholder, hlive, hreaches⟩ := hpoints
  refine ⟨hlocks.1, setsFlag.1, ?_, hlocks.2, setsFlag.2, ?_⟩
  · obtain ⟨body, hbody, -, hall⟩ := ControlFlow.lock_sets_flag_unless_left program hlocks.1 (hgraph 0 rfl)
    obtain rfl : 5 = body := Option.some.inj hbody
    rw [← (hall 2 10 setsFlag.1).1]
    rintro ⟨i, j, hi, -, hj, hreach⟩
    obtain rfl := Option.some.inj (hlate.symm.trans hi)
    obtain rfl := Option.some.inj (hhole.symm.trans hj)
    exact absurd (hnever.symm.trans hreach) (by simp)
  · obtain ⟨body, hbody, -, hall⟩ := ControlFlow.lock_sets_flag_unless_left program hlocks.2 (hgraph 1 rfl)
    obtain rfl : 13 = body := Option.some.inj hbody
    exact ((hall 2 19 setsFlag.2).2 22 [] rfl rfl rfl).1 ⟨8, 10, hset, hlive, hplaceholder, hreaches⟩

end Gate

end ContractFlow
