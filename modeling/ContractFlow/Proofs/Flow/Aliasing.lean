import ContractFlow.Proofs.Flow.Listing
import Mathlib.Data.Nat.Digits.Defs

/-! This module shows which steps through the state literal indices take away. -/

namespace ContractFlow

open Outcome (bind_eq_ok pure_eq_ok)

/-! Number literals -/

namespace Numeral

variable {base i : Nat} {ds es : List Nat} {s t : String}

def digit? (c : Char) : Option Nat :=
  if '0' ≤ c ∧ c ≤ '9' then some (c.toNat - '0'.toNat)
  else if 'a' ≤ c ∧ c ≤ 'f' then some (c.toNat - 'a'.toNat + 10)
  else if 'A' ≤ c ∧ c ≤ 'F' then some (c.toNat - 'A'.toNat + 10)
  else none

def digits? (base : Nat) (cs : List Char) : Option Nat :=
  match (cs.filter (· ≠ '_')).mapM fun c => (digit? c).filter (· < base) with
  | some (d :: ds) => some (Nat.ofDigits base (d :: ds).reverse)
  | _ => none

/-- The number that a literal denotes, in decimal digits or behind `0x` in hexadecimal ones. -/
def number? (text : String) : Option Nat :=
  match text.toList with
  | '0' :: 'x' :: cs => digits? 16 cs
  | cs => digits? 10 cs

inductive IsShort (base : Nat) : List Nat → Prop
  | zero : 0 < base → IsShort base [0]
  | positive {d : Nat} {ds : List Nat} : d ≠ 0 → (∀ e ∈ d :: ds, e < base) → IsShort base (d :: ds)

/-- The shortest way to write a number with a base. -/
inductive IsPlain : Nat → String → Prop
  | decimal {ds : List Nat} : IsShort 10 ds → IsPlain 10 (.ofList (ds.map Nat.digitChar))
  | hexadecimal {ds : List Nat} : IsShort 16 ds → IsPlain 16 (.ofList ('0' :: 'x' :: ds.map Nat.digitChar))

theorem IsShort.lt (h : IsShort base ds) : ∀ d ∈ ds, d < base := by
  cases h with
  | zero hbase => simpa using hbase
  | positive _ hlt => exact hlt

theorem digit?_digitChar (h : i < 16) : digit? (Nat.digitChar i) = some i := by
  revert i
  decide

theorem digitChar_ne (h : i < 16) : Nat.digitChar i ≠ '_' ∧ Nat.digitChar i ≠ 'x' := by
  revert i
  decide

theorem digits?_map_digitChar (hbase : base ≤ 16) (h : IsShort base ds) :
    digits? base (ds.map Nat.digitChar) = some (Nat.ofDigits base ds.reverse) := by
  have hlt : ∀ d ∈ ds, d < 16 := fun d hd => Nat.lt_of_lt_of_le (h.lt d hd) hbase
  have hfilter : (ds.map Nat.digitChar).filter (· ≠ '_') = ds.map Nat.digitChar := by
    rw [List.filter_eq_self]
    intro c hc
    obtain ⟨d, hd, rfl⟩ := List.mem_map.1 hc
    simp [(digitChar_ne (hlt d hd)).1]
  have hmap : (ds.map Nat.digitChar).mapM (fun c => (digit? c).filter (· < base)) = some ds := by
    have hdigit := h.lt
    clear h hfilter
    induction ds with
    | nil => rfl
    | cons d ds ih =>
      rw [List.forall_mem_cons] at hdigit hlt
      rw [List.map_cons, List.mapM_cons, ih hlt.2 hdigit.2, digit?_digitChar hlt.1]
      simp [Option.filter_some, hdigit.1]
  unfold digits?
  rw [hfilter, hmap]
  cases h with
  | zero => rfl
  | positive => rfl

theorem IsShort.digits_ofDigits {d : Nat} (hbase : 1 < base) (hd : d ≠ 0) (hlt : ∀ e ∈ d :: ds, e < base) :
    Nat.digits base (Nat.ofDigits base (d :: ds).reverse) = (d :: ds).reverse := by
  refine Nat.digits_ofDigits base hbase _ (fun e he => hlt e (List.mem_reverse.1 he)) ?_
  simpa using hd

theorem IsShort.eq_of_ofDigits_eq (hbase : 1 < base) (hd : IsShort base ds) (he : IsShort base es)
    (h : Nat.ofDigits base ds.reverse = Nat.ofDigits base es.reverse) : ds = es := by
  have hdigits := congrArg (Nat.digits base) h
  cases hd with
  | zero =>
    cases he with
    | zero => rfl
    | positive he hlt =>
      rw [digits_ofDigits hbase he hlt] at hdigits
      simp at hdigits
  | positive hd hlt =>
    rw [digits_ofDigits hbase hd hlt] at hdigits
    cases he with
    | zero => simp at hdigits
    | positive he hlt' =>
      rw [digits_ofDigits hbase he hlt'] at hdigits
      exact List.reverse_injective hdigits

theorem number?_decimal (h : IsShort 10 ds) :
    number? (.ofList (ds.map Nat.digitChar)) = some (Nat.ofDigits 10 ds.reverse) := by
  unfold number?
  rw [String.toList_ofList]
  split
  · next cs heq =>
    have hx : 'x' ∈ ds.map Nat.digitChar := by simp [heq]
    obtain ⟨d, hd, hchar⟩ := List.mem_map.1 hx
    exact absurd hchar (digitChar_ne (Nat.lt_trans (h.lt d hd) (by decide))).2
  · exact digits?_map_digitChar (by decide) h

theorem number?_hexadecimal (h : IsShort 16 ds) :
    number? (.ofList ('0' :: 'x' :: ds.map Nat.digitChar)) = some (Nat.ofDigits 16 ds.reverse) := by
  unfold number?
  rw [String.toList_ofList]
  exact digits?_map_digitChar (by decide) h

theorem IsPlain.exists_ne (hs : IsPlain base s) (ht : IsPlain base t) (hne : s ≠ t) :
    ∃ i j, number? s = some i ∧ number? t = some j ∧ i ≠ j := by
  cases hs with
  | decimal hd =>
    cases ht with
    | decimal he =>
      refine ⟨_, _, number?_decimal hd, number?_decimal he, fun h => hne ?_⟩
      rw [hd.eq_of_ofDigits_eq (by decide) he h]
  | hexadecimal hd =>
    cases ht with
    | hexadecimal he =>
      refine ⟨_, _, number?_hexadecimal hd, number?_hexadecimal he, fun h => hne ?_⟩
      rw [hd.eq_of_ofDigits_eq (by decide) he h]

example : number? "1_000" = some 1000 ∧ number? "0x3e8" = some 1000 ∧ number? "0X3E8" = none := by decide +kernel

end Numeral

/-! Elements that literals pick -/

namespace Arena

variable {a : Arena} {n site target root : NodeId} {text : Value}

structure IndexedBy (a : Arena) (n literal : NodeId) : Prop where
  access : ∃ p, a.parent? n = some p ∧ a.kind p = .indexAccess ∧ a.child? p "indexExpression" = some literal
  base : a.role n = "baseExpression"
  literal : a.kind literal = .literal

theorem literalIndex?_eq_some_iff :
    a.literalIndex? n = some text ↔ ∃ literal, a.IndexedBy n literal ∧ a.text literal = text := by
  unfold literalIndex?
  constructor
  · intro h
    split at h
    · simp at h
    · next p hp =>
      split at h
      · next hbase =>
        rw [Bool.and_eq_true, beq_iff_eq, beq_iff_eq] at hbase
        obtain ⟨literal, hliteral, htext⟩ := Option.map_eq_some_iff.1 h
        obtain ⟨hchild, hkind⟩ := Option.filter_eq_some_iff.1 hliteral
        exact ⟨literal, ⟨⟨p, hp, hbase.1, hchild⟩, hbase.2, eq_of_beq hkind⟩, htext⟩
      · simp at h
  · rintro ⟨literal, ⟨⟨p, hp, hkind, hchild⟩, hbase, hliteral⟩, rfl⟩
    simp [hp, hkind, hbase, hchild, hliteral]

/-- What an assignment, or an operation on a variable, writes to. -/
inductive WritesTo (a : Arena) (site target : NodeId) : Prop
  | assignment : a.kind site = .assignment → a.child? site "leftHandSide" = some target → WritesTo a site target
  | operation : a.kind site = .unaryOperation → a.child? site "subExpression" = some target → WritesTo a site target

theorem writtenIndex?_eq_some_iff : a.writtenIndex? site = some text ↔ ∃ target root, a.WritesTo site target ∧
    a.rootExpression? target = some root ∧ a.literalIndex? root = some text := by
  unfold writtenIndex?
  simp only [Option.bind_eq_some_iff]
  constructor
  · rintro ⟨root, ⟨target, htarget, hroot⟩, htext⟩
    refine ⟨target, root, ?_, hroot, htext⟩
    split at htarget
    · next hkind => exact .assignment hkind htarget
    · next hkind => exact .operation hkind htarget
    · simp at htarget
  · rintro ⟨target, root, hwrites, hroot, htext⟩
    refine ⟨root, ⟨target, ?_, hroot⟩, htext⟩
    cases hwrites with
    | assignment hkind htarget | operation hkind htarget => simp [hkind, htarget]

theorem rootExpression?_of_mem_items (hkind : a.kind target = .tupleExpression)
    (hroot : a.rootExpression? target = some root) {c : NodeId} (hc : c ∈ a.items target "components") :
    a.rootExpression? c = some root := by
  cases isPath_of_rootExpression? hroot with
  | name h | index h | member h => simp [hkind] at h
  | @parentheses _ inner _ hentries hpath =>
    have hitems : a.items target "components" = [inner] := by simp [items, hentries]
    rw [hitems, List.mem_singleton] at hc
    exact hc ▸ hpath.rootExpression?

end Arena

/-- The variable `decl` is named at `n` and directly indexed there by the node `literal`. -/
structure Program.Indexes (p : Program) (decl n literal : NodeId) : Prop extends p.arena.IndexedBy n literal where
  names : p.findVariable n = .ok (some decl)

namespace FlowModel

variable {m : FlowModel} {site decl n target root : NodeId}

theorem rootExpression?_of_mem_targetsOf {t : NodeId} (htarget : m.arena.child? site "leftHandSide" = some target)
    (hroot : m.arena.rootExpression? target = some root) (ht : t ∈ m.targetsOf site) :
    m.arena.rootExpression? t = some root := by
  unfold targetsOf at ht
  simp only [htarget] at ht
  split at ht
  · next htuple => exact Arena.rootExpression?_of_mem_items (eq_of_beq htuple) hroot ht
  · rw [List.mem_singleton.1 ht]
    exact hroot

theorem IsListed.findVariable_root (h : m.IsListed (.stateWrite site decl))
    (hvariables : ∀ c < m.contracts.size, ∀ v ∈ (m.contractD c).stateVariables,
      m.arena.kind v.node = .variableDeclaration) (ht : m.arena.WritesTo site target)
    (hroot : m.arena.rootExpression? target = some root) : m.findVariable root = .ok (some decl) := by
  have hat {n t : NodeId} {xs : List FlowNode} (hxs : m.writeNodes n t = .ok xs) (hx : .stateWrite site decl ∈ xs) :
      n = site ∧ ∃ r, m.arena.rootExpression? t = some r ∧ m.findVariable r = .ok (some decl) := by
    cases writes_of_mem_writeNodes hxs hx with
    | state hroot hdecl => exact ⟨rfl, _, hroot, hdecl⟩
  cases h with
  | initial hc hv =>
    have hkind := hvariables _ hc _ hv
    cases ht with
    | assignment h => simp [hkind] at h
    | operation h => simp [hkind] at h
  | below _ hx =>
    cases hx with
    | call hcall _ _ hx =>
      cases hx with
      | pushed _ _ _ hxs hx =>
        obtain ⟨rfl, -⟩ := hat hxs hx
        cases ht with
        | assignment h => simp [hcall] at h
        | operation h => simp [hcall] at h
    | assigned hkind htarget hxs hx =>
      obtain ⟨rfl, r, hr, hdecl⟩ := hat hxs hx
      cases ht with
      | operation h => simp [hkind] at h
      | assignment _ hchild =>
        obtain rfl := Option.some.inj (hr.symm.trans (rootExpression?_of_mem_targetsOf hchild hroot htarget))
        exact hdecl
    | stepped hkind _ htarget hxs hx =>
      obtain ⟨rfl, r, hr, hdecl⟩ := hat hxs hx
      cases ht with
      | assignment h => simp [hkind] at h
      | operation _ hchild =>
        obtain rfl := Option.some.inj (htarget.symm.trans hchild)
        obtain rfl := Option.some.inj (hr.symm.trans hroot)
        exact hdecl

theorem mem_jumpFlows_stateWrite_iff : .stateRead n decl ∈ (m.jumpFlows (.stateWrite site decl)).getD [] ↔
    (∃ reads, m.stateReads decl = .ok reads ∧ n ∈ reads) ∧
      m.isApart (m.arena.writtenIndex? site) (m.arena.literalIndex? n) = false := by
  rw [Query.mem_getD_nil_iff]
  constructor
  · rintro ⟨ys, hys, hn⟩
    obtain ⟨reads, hreads, hys⟩ := bind_eq_ok.1 hys
    obtain rfl := pure_eq_ok.1 hys
    obtain ⟨k, hk, heq⟩ := List.mem_map.1 hn
    obtain ⟨rfl, -⟩ := FlowNode.stateRead.inj heq
    obtain ⟨hk, hseen⟩ := List.mem_filter.1 hk
    exact ⟨⟨reads, hreads, hk⟩, by simpa using hseen⟩
  · rintro ⟨⟨reads, hreads, hn⟩, hseen⟩
    refine ⟨_, bind_eq_ok.2 ⟨reads, hreads, rfl⟩, List.mem_map.2 ⟨n, List.mem_filter.2 ⟨hn, ?_⟩, rfl⟩⟩
    simp [hseen]

theorem findVariable_of_mem_stateReads {reads : List NodeId} (h : m.stateReads decl = .ok reads) (hn : n ∈ reads) :
    m.findVariable n = .ok (some decl) := by
  obtain ⟨-, htrue⟩ := (Outcome.mem_of_filterM_eq_ok h n).1 hn
  obtain ⟨found, hfound, htrue⟩ := bind_eq_ok.1 htrue
  obtain rfl : found = some decl := by simpa using pure_eq_ok.1 htrue
  obtain ⟨named, hnamed, hfound⟩ := bind_eq_ok.1 hfound
  rw [hnamed, (Option.filter_eq_some_iff.1 (pure_eq_ok.1 hfound)).1]

theorem isApart_literalIndex_iff (hm : m.aliasing = .literalIndex) :
    m.isApart (m.arena.writtenIndex? site) (m.arena.literalIndex? n) = true ↔
      ∃ target root written read, m.arena.WritesTo site target ∧ m.arena.IsPath root target ∧
        m.arena.IndexedBy root written ∧ m.arena.IndexedBy n read ∧
        (m.arena.text written == m.arena.text read) = false := by
  unfold isApart
  rw [hm]
  constructor
  · intro h
    split at h
    · next i j _ hi hj =>
      obtain ⟨target, root, hwrites, hroot, hi⟩ := Arena.writtenIndex?_eq_some_iff.1 hi
      obtain ⟨written, hwritten, rfl⟩ := Arena.literalIndex?_eq_some_iff.1 hi
      obtain ⟨read, hread, rfl⟩ := Arena.literalIndex?_eq_some_iff.1 hj
      exact ⟨target, root, written, read, hwrites, Arena.isPath_of_rootExpression? hroot, hwritten, hread,
        by simpa [bne] using h⟩
    · simp at h
  · rintro ⟨target, root, written, read, hwrites, hpath, hwritten, hread, hne⟩
    have hi := Arena.writtenIndex?_eq_some_iff.2
      ⟨target, root, hwrites, hpath.rootExpression?, Arena.literalIndex?_eq_some_iff.2 ⟨written, hwritten, rfl⟩⟩
    have hj := Arena.literalIndex?_eq_some_iff.2 ⟨read, hread, rfl⟩
    simp [hi, hj, bne, hne]

theorem not_mem_jumpFlows_iff {reads : List NodeId} (hm : m.aliasing = .literalIndex)
    (hreads : m.stateReads decl = .ok reads) (hn : n ∈ reads) :
    .stateRead n decl ∉ (m.jumpFlows (.stateWrite site decl)).getD [] ↔
      ∃ target root written read, m.arena.WritesTo site target ∧ m.arena.IsPath root target ∧
        m.arena.IndexedBy root written ∧ m.arena.IndexedBy n read ∧
        (m.arena.text written == m.arena.text read) = false := by
  rw [mem_jumpFlows_stateWrite_iff, not_and, Bool.not_eq_false, ← isApart_literalIndex_iff hm]
  exact ⟨fun h => h ⟨reads, hreads, hn⟩, fun h _ => h⟩

end FlowModel

/--
Literal indices take a step through the state away just if the write and the read both pick an element of the variable
directly, by literals of different text. Numbers in the shortest spelling with the same base are then different; numbers
that are spelled otherwise can be the same.
-/
theorem Session.literal_index_parts_different_texts (a : Arena) (plan : FailurePlan) (settings : Settings)
    {site decl n : NodeId} {xs : List FlowNode}
    (hnodes : (analyse a plan { settings with aliasing := .container }).nodes.outcome = .ok xs)
    (hwrite : .stateWrite site decl ∈ xs)
    (hstep : .stateRead n decl ∈
      ((analyse a plan { settings with aliasing := .container }).jumpSteps (.stateWrite site decl)).getD []) :
    .stateRead n decl ∉
        ((analyse a plan { settings with aliasing := .literalIndex }).jumpSteps (.stateWrite site decl)).getD [] ↔
      ∃ target root written read, a.WritesTo site target ∧ a.IsPath root target ∧
        (Program.ofArena a plan).Indexes decl root written ∧ (Program.ofArena a plan).Indexes decl n read ∧
        (a.text written == a.text read) = false ∧
        ∀ base s t, a.text written = .text s → a.text read = .text t →
          Numeral.IsPlain base s → Numeral.IsPlain base t →
            ∃ i j, Numeral.number? s = some i ∧ Numeral.number? t = some j ∧ i ≠ j := by
  rw [FlowGraph.mem_jumpSteps_iff, FlowModel.mem_jumpFlows_stateWrite_iff] at hstep
  obtain ⟨⟨reads, hreads, hn⟩, -⟩ := hstep
  have hreader := FlowModel.findVariable_of_mem_stateReads hreads hn
  rw [FlowGraph.nodes_eq] at hnodes
  have hlisted := FlowModel.isListed_of_mem_listNodes hnodes hwrite
  have hwriter {target root : NodeId} (ht : a.WritesTo site target) (hpath : a.IsPath root target) :
      (Program.ofArena a plan).findVariable root = .ok (some decl) :=
    hlisted.findVariable_root (fun c hc => (Outline.contractD_ofArena hc).2.2) ht hpath.rootExpression?
  have hliteral : (analyse a plan { settings with aliasing := .literalIndex }).stateReads decl = .ok reads := hreads
  rw [FlowGraph.mem_jumpSteps_iff, FlowModel.not_mem_jumpFlows_iff rfl hliteral hn]
  constructor
  · rintro ⟨target, root, written, read, ht, hpath, hwritten, hread, hne⟩
    refine ⟨target, root, written, read, ht, hpath, ⟨hwritten, hwriter ht hpath⟩, ⟨hread, hreader⟩, hne, ?_⟩
    rintro base s t hs ht hplain hplain'
    refine hplain.exists_ne hplain' fun heq => ?_
    change (a.text written == a.text read) = false at hne
    rw [hs, ht, heq, BEq.rfl] at hne
    simp at hne
  · rintro ⟨target, root, written, read, ht, hpath, hwritten, hread, hne, -⟩
    exact ⟨target, root, written, read, ht, hpath, hwritten.toIndexedBy, hread.toIndexedBy, hne⟩

/-! A contract with a state variable `m` and a function with the parameter `x` and the body
`m[10] = x; return m[0xa];`. -/

namespace Spelling

open Sample

def nodes : Array Node := #[
  unit [1],
  contract "A" [] [2, 3],
  named .variableDeclaration 1 "nodes" "m",
  function 1 4 5 "f",
  parameterList 3 [6],
  block 3 [7, 8],
  parameter 4 "x",
  statement 5 9,
  node .returnStatement (some 5) "statements" [("expression", .one 10)] [],
  assign 7 11 12,
  index 8 "expression" 13 14,
  index 9 "leftHandSide" 15 16,
  identifier 9 "rightHandSide" "x",
  identifier 10 "baseExpression" "m",
  literal 10 "indexExpression" "0xa",
  identifier 11 "baseExpression" "m",
  literal 11 "indexExpression" "10"]

def arena : Arena :=
  arenaOf nodes (by decide +kernel)

def analysis (aliasing : Aliasing) : FlowGraph :=
  Session.analyse arena {} { aliasing := aliasing }

def listed : List FlowNode :=
  ((analysis .container).nodes).getD []

theorem same_number_is_parted :
    .stateWrite 9 2 ∈ listed ∧
      .stateRead 13 2 ∈ ((analysis .container).jumpSteps (.stateWrite 9 2)).getD [] ∧
      .stateRead 13 2 ∉ ((analysis .literalIndex).jumpSteps (.stateWrite 9 2)).getD [] ∧
      (∃ root written read, (Program.ofArena arena {}).Indexes 2 root written ∧
        (Program.ofArena arena {}).Indexes 2 13 read ∧ (arena.text written == arena.text read) = false) ∧
      Numeral.number? "10" = Numeral.number? "0xa" := by
  have hnodes : (analysis .container).nodes.outcome = .ok listed := by decide +kernel
  have hwrite : .stateWrite 9 2 ∈ listed := by decide +kernel
  have hstep : .stateRead 13 2 ∈ ((analysis .container).jumpSteps (.stateWrite 9 2)).getD [] := by decide +kernel
  have hmissing : .stateRead 13 2 ∉ ((analysis .literalIndex).jumpSteps (.stateWrite 9 2)).getD [] := by
    decide +kernel
  obtain ⟨_, root, written, read, -, -, hwritten, hread, hne, -⟩ :=
    (Session.literal_index_parts_different_texts arena {} {} hnodes hwrite hstep).1 hmissing
  exact ⟨hwrite, hstep, hmissing, ⟨root, written, read, hwritten, hread, hne⟩, by decide +kernel⟩

end Spelling

end ContractFlow
