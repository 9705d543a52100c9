import ContractFlow.Proofs.Flow.PlainStep
import ContractFlow.Proofs.Flow.Reach
import ContractFlow.Session

/-! This module shows that explicit flow through local variables is exact. -/

namespace ContractFlow

/-- A policy that stops nowhere and adds nothing. -/
structure Policy.IsOpen (p : Policy) : Prop where
  barrier : ∀ owner x, (p.isBarrier owner x).outcome = .ok false
  flow : ∀ x, (p.flowSteps x).outcome = .ok []
  taint : ∀ x, (p.taintSteps x).outcome = .ok []

theorem Policy.IsOpen.isTotal {p : Policy} (h : p.IsOpen) : p.IsTotal where
  barrier owner x := ⟨_, h.barrier owner x⟩
  flow x := ⟨_, h.flow x⟩
  taint x := ⟨_, h.taint x⟩

theorem SsaForm.sources_self {s : SsaForm} {e i : Nat} {y : NodeId} (he : e ∈ s.writersAt i y) : s.Sources e e :=
  ⟨.refl, (mem_writersAt_iff.1 he).2.1⟩

theorem ControlGraph.Visits.cut {g : ControlGraph} {t rest : List NodeId} {c n : NodeId}
    (h : g.Visits (t ++ c :: rest) n) : g.Visits t c := by
  obtain ⟨path, i, hrun, -, htrace⟩ := h
  rw [List.append_assoc] at htrace
  obtain ⟨front, k, back, rfl, hk, hfront, -⟩ := exists_of_trace_eq htrace
  refine ⟨_, k, hrun.upTo, hk, ?_⟩
  rw [trace_append, hfront]
  simp [trace, hk]

theorem Program.not_assigns_of_variableOf? {p : Program} {n v x y : NodeId} (h : p.variableOf? n = some x) :
    ¬p.Assigns n y v := by
  intro hassigns
  have hkind := kind_of_variableOf? h
  cases hassigns with
  | declaration hk | assignment hk => simp [hk] at hkind

theorem Program.Assigns.role_ne {p : Program} {s v y : NodeId} (h : p.Assigns s y v) :
    p.arena.role v ≠ "leftHandSide" := by
  cases h with
  | declaration _ _ hv => simp [(Arena.parent?_of_child? hv).2]
  | assignment _ _ _ _ hv => simp [(Arena.parent?_of_child? hv).2]

namespace FlowModel

variable {m : FlowModel} {f : CallableId} {g : ControlGraph} {i d e : Nat} {n s u v x y : NodeId} {t : List NodeId}
  {a b : FlowNode}

def Flows (m : FlowModel) (a b : FlowNode) : Prop :=
  b ∈ (m.localFlows a).getD []

/-- What can be reached from the parameter of `f` that `x` declares, and why. -/
inductive Carried (m : FlowModel) (f : CallableId) (g : ControlGraph) (x : NodeId) : FlowNode → Prop
  | parameter {i : Nat} {y : Parameter} : (m.callableD f).parameters[i]? = some y → y.node = x →
      Carried m f g x (.parameter f i)
  | definition {d e : Nat} : (m.formOver g).Sources d e → m.Origin g x e → Carried m f g x (.definition f d)
  | value {t : List NodeId} {n : NodeId} : m.IsPlainExpression n → m.Passes n → g.Visits t n → m.Carries x t n →
      Carried m f g x (.expression n)
  | assignment {s q : NodeId} : m.arena.kind s = .assignment → m.arena.parent? s = some q →
      m.arena.kind q = .expressionStatement → Carried m f g x (.expression s)
  | result {f' : CallableId} {i : Int} : Carried m f g x (.result f' i)

section Sound

variable (h : m.IsPlainBody f g)

include h

theorem Carried.of_value (hn : m.IsPlainExpression n) (hpasses : m.Passes n) (hvisits : g.Visits t n)
    (hcarries : m.Carries x t n) (hb : b ∈ (m.expressionFlows n).getD []) : m.Carried f g x b := by
  obtain ⟨path, k, hrun, hk, htrace⟩ := hvisits
  have hassigned (s y : NodeId) (hassigns : m.Assigns s y n) : ∃ j path' w, g.Run path' j ∧ g.node? j = some s ∧
      n ∉ w ∧ g.trace path' = t ++ n :: w ++ [s] := by
    obtain ⟨path', j, w, hrun', hj, hw, htrace'⟩ :=
      ControlFlow.exists_run_assigns h.plain h.graph hrun hk hn hassigns
    exact ⟨j, path', w, hrun', hj, hw, by rw [htrace', htrace]; simp⟩
  have hgoes := h.gives_goesTo hpasses fun s y hassigns => by
    obtain ⟨j, path', -, hrun', hj, -⟩ := hassigned s y hassigns
    exact ⟨j, hj, (ControlGraph.exists_run_iff h.sound).1 ⟨_, hrun'⟩⟩
  obtain ⟨bs, hbs, hb⟩ := Query.mem_getD_nil_iff.1 hb
  cases hgoes bs hbs b hb with
  | feeds hfeeds =>
    obtain ⟨path', j, w, hrun', hj, ⟨hw, hconditional⟩, htrace'⟩ :=
      ControlFlow.exists_run_feeds h.plain h.graph hrun hk hn hfeeds
    obtain ⟨hplain, hpasses⟩ := (h.isPlainNode hj).value_of_feeds hfeeds
    refine .value (t := t ++ n :: w) hplain hpasses ⟨path', j, hrun', hj, ?_⟩ (.part hfeeds hw ?_ hcarries)
    · rw [htrace', htrace]
      simp
    · intro hkind
      simp [hconditional hkind]
  | assigned hassigns hj hwriters =>
    obtain ⟨j', path', w, hrun', hj', hw, htrace'⟩ := hassigned _ _ hassigns
    -- the definition stands where the run comes to, as a node has one point only
    obtain rfl := h.point_unique _ _ _ hj hj'
    have he := hwriters ▸ List.mem_singleton_self _
    exact .definition (SsaForm.sources_self he) (.assigned he hj hassigns hrun' htrace' hw hcarries)
  | assignment hassigns hkind =>
    -- the value of a whole assignment goes no further, because only statements hold assignments
    obtain ⟨j, -, -, -, hj, -⟩ := hassigned _ _ hassigns
    cases h.isPlainNode hj with
    | statement hs => rcases hs with hs | hs | hs | hs | hs <;> simp [hs] at hkind
    | declaration hs => simp [hs] at hkind
    | assignment _ hparent hstatement => exact .assignment hkind hparent hstatement
    | target hs =>
      obtain ⟨y, hy⟩ := hs.name
      simp [hy.kind] at hkind
    | value hs => rcases hs.kind with hs | hs | hs | hs | hs <;> simp [hs] at hkind
  | result => exact .result

theorem Carried.of_definition (hsources : (m.formOver g).Sources d e) (horigin : m.Origin g x e)
    (hb : b ∈ (m.definitionFlows f d).getD []) : m.Carried f g x b := by
  obtain ⟨results, heq, hresults⟩ := h.exists_definitionFlows_eq d
  rw [Query.getD_eq_of_outcome heq, List.mem_append, List.mem_append] at hb
  rcases hb with (hb | hb) | hb
  · obtain ⟨u, hu, rfl⟩ := List.mem_map.1 hb
    obtain ⟨i, y, hlive, hi, hlocal, htracked, hread, hd⟩ :=
      SsaForm.exists_of_mem_usesOf h.sound h.point_unique hu
    have hreaching := SsaForm.reaching_definitionOf? h.sound (fun i j => h.point_unique i j u) hlive hi hlocal
      htracked hread
    rw [hd] at hreaching
    obtain ⟨path, hrun, hlast⟩ := (hreaching.2.2 e).1 hsources
    obtain ⟨hkind, -, hnames⟩ := Program.of_localOf? hlocal
    obtain ⟨t, hvisits, hcarries⟩ := ControlFlow.exists_visits_of_lastOn h.plain h.graph hrun hi
      hnames.variableOf? hlast horigin
    obtain ⟨hplain, hpasses⟩ := (h.isPlainNode hi).value_of_isRead hkind hread
    exact .value hplain hpasses hvisits hcarries
  · obtain ⟨phi, hphi, rfl⟩ := List.mem_map.1 hb
    have hinput := List.contains_iff_mem.1 (List.mem_filter.1 hphi).2
    exact .definition ⟨.head hinput hsources.1, hsources.2⟩ horigin
  · obtain ⟨i, rfl⟩ := hresults b hb
    exact .result

theorem Carried.step (ha : m.Carried f g x a) (hflows : m.Flows a b) : m.Carried f g x b := by
  cases ha with
  | parameter hy hx =>
    obtain ⟨d, hd, hwriters⟩ := h.exists_parameterFlows_eq hy
    have hb : b ∈ (m.parameterFlows f _).getD [] := hflows
    rw [Query.getD_eq_of_outcome hd] at hb
    rw [List.mem_singleton.1 hb]
    have he := hwriters ▸ List.mem_singleton_self _
    exact .definition (SsaForm.sources_self he) (.entry (hx ▸ he))
  | definition hsources horigin => exact .of_definition h hsources horigin hflows
  | value hn hpasses hvisits hcarries => exact .of_value h hn hpasses hvisits hcarries hflows
  | @assignment s _ _ hparent hkind =>
    have hb : b ∈ (m.expressionFlows s).getD [] := hflows
    unfold expressionFlows at hb
    simp only [hparent, hkind] at hb
    exact absurd hb List.not_mem_nil
  | result => exact absurd hflows List.not_mem_nil

theorem Carried.not_mem_jumpFlows (ha : m.Carried f g x a) : b ∉ (m.jumpFlows a).getD [] := by
  cases ha with
  | parameter | definition | value | assignment => exact List.not_mem_nil
  | @result f' i =>
    have hcalls : m.callNodes = [] := by
      refine List.filter_eq_nil_iff.2 fun n _ => ?_
      simpa using h.plain.calls n
    have hcallers : (m.callersOf f').outcome = .ok [] := by
      unfold callersOf
      rw [hcalls]
      rfl
    have hjump : (m.jumpFlows (.result f' i)).outcome = .ok [] := by
      unfold jumpFlows
      rw [Query.outcome_bind_ok hcallers]
      rfl
    rw [Query.getD_eq_of_outcome hjump]
    exact List.not_mem_nil

end Sound

section Complete

open Relation (ReflTransGen)

variable (h : m.IsPlainBody f g)

include h

theorem flows_of_sources (hsources : (m.formOver g).Sources d e) :
    ReflTransGen m.Flows (.definition f e) (.definition f d) := by
  obtain ⟨hmerges, -⟩ := hsources
  induction hmerges using ReflTransGen.head_induction_on with
  | refl => exact .refl
  | @head d d' hinput _ ih =>
    refine ih.tail ?_
    obtain ⟨results, heq, -⟩ := h.exists_definitionFlows_eq d'
    have hphi := SsaForm.mem_phis_of_mem_phiInputs h.sound hinput
    change _ ∈ (m.definitionFlows f d').getD []
    rw [Query.getD_eq_of_outcome heq]
    refine List.mem_append_left _ (List.mem_append_right _ (List.mem_map_of_mem (List.mem_filter.2 ⟨hphi, ?_⟩)))
    exact List.contains_iff_mem.2 hinput

theorem flows_of_lastOn {path : List Nat} {k : Nat} (hrun : g.Run path k) (hk : g.node? k = some n)
    (hn : m.variableOf? n = some y) (hread : m.isRead n = true)
    (hlast : LastOn ((m.formOver g).lastWrite? · y) path e) :
    ReflTransGen m.Flows (.definition f e) (.expression n) := by
  have hlocal := (h.isPlainNode hk).localOf?_eq hn
  obtain ⟨d, hd, hsources⟩ := ControlFlow.exists_definitionOf?_of_lastOn h.graph hrun hk hlocal hread hlast
  refine (flows_of_sources h hsources).tail ?_
  obtain ⟨results, heq, -⟩ := h.exists_definitionFlows_eq d
  change _ ∈ (m.definitionFlows f d).getD []
  rw [Query.getD_eq_of_outcome heq]
  have huse := List.mem_map_of_mem (f := FlowNode.expression) (SsaForm.mem_usesOf_of_definitionOf? hd)
  exact List.mem_append_left _ (List.mem_append_left _ huse)

theorem flows_assigned {j : Nat} (hj : g.node? j = some s) (hlive : g.isLive j = true)
    (hassigns : m.Assigns s y v) : ∃ d, m.Flows (.expression v) (.definition f d) ∧
      (m.formOver g).lastWrite? j y = some d := by
  obtain ⟨d, hd, hwriters⟩ := h.exists_definitionTarget_eq hj hlive hassigns
  obtain ⟨front, heq, -⟩ := IsPlainBody.expressionFlows_assigned hassigns
  rw [hd] at heq
  refine ⟨d, ?_, ?_⟩
  · change _ ∈ (m.expressionFlows v).getD []
    rw [Query.getD_eq_of_outcome heq]
    exact List.mem_append_right _ (List.mem_singleton_self _)
  · rw [SsaForm.lastWrite?_eq, hwriters]
    rfl

theorem flows_of_carries {z : Parameter} (hz : (m.callableD f).parameters[i]? = some z)
    (hcarries : m.Carries z.node t n) (hvisits : g.Visits t n)
    (hread : m.arena.kind n = .identifier → m.isRead n = true) :
    ReflTransGen m.Flows (.parameter f i) (.expression n) := by
  -- the run to `n` is cut where it visits what `n` has its value from, and only names need to be reads
  induction hcarries with
  | parameter hn hquiet =>
    obtain ⟨path, k, hrun, hk, htrace⟩ := hvisits
    obtain ⟨back, rfl⟩ := hrun.eq_cons
    obtain ⟨d, hd, hwriters⟩ := h.exists_parameterFlows_eq hz
    have hflows : m.Flows (.parameter f i) (.definition f d) := by
      change _ ∈ (m.parameterFlows f i).getD []
      rw [Query.getD_eq_of_outcome hd]
      exact List.mem_singleton_self _
    have hlast : LastOn ((m.formOver g).lastWrite? · z.node) (Draft.entry :: back) d := by
      rw [← List.nil_append (Draft.entry :: back)] at hrun ⊢
      refine ControlFlow.lastOn_of_not_assigns h.plain h.graph hrun ?_ fun s hs v => ?_
      · rw [SsaForm.lastWrite?_eq, hwriters]
        rfl
      · have hback : g.trace (Draft.entry :: back) = g.trace back := by
          simp [ControlGraph.trace, ControlGraph.node?_entry h.sound]
        rw [← hback, htrace] at hs
        rcases List.mem_append.1 hs with hs | hs
        · exact hquiet s hs v
        · exact List.mem_singleton.1 hs ▸ Program.not_assigns_of_variableOf? hn
    exact .head hflows (flows_of_lastOn h hrun hk hn (hread (Program.kind_of_variableOf? hn)) hlast)
  | @assigned before between after n s y v hn hassigns hquiet _ _ ih =>
    have hv : g.Visits before v := by
      rw [List.append_assoc] at hvisits
      exact hvisits.cut
    have hreach := ih hv fun hkind => by
      obtain ⟨-, k, -, hk, -⟩ := hv
      exact (h.isPlainNode hk).isRead_of_role hkind fun _ _ _ => hassigns.role_ne
    obtain ⟨path, k, hrun, hk, htrace⟩ := hvisits
    rw [List.append_assoc] at htrace
    obtain ⟨front, j, back, rfl, hj, -, hback⟩ := ControlGraph.exists_of_trace_eq htrace
    obtain ⟨d, hflows, hwrite⟩ := flows_assigned h hj (hrun.isLive h.sound (by simp)) hassigns
    have hlast := ControlFlow.lastOn_of_not_assigns h.plain h.graph hrun hwrite fun s hs v => by
      rw [hback] at hs
      rcases List.mem_append.1 hs with hs | hs
      · exact hquiet s hs v
      · exact List.mem_singleton.1 hs ▸ Program.not_assigns_of_variableOf? hn
    exact (hreach.tail hflows).trans
      (flows_of_lastOn h hrun hk hn (hread (Program.kind_of_variableOf? hn)) hlast)
  | @part before between n c hfeeds _ _ _ ih =>
    have hc := hvisits.cut
    refine (ih hc fun hkind => ?_).tail ?_
    · obtain ⟨-, k, -, hk, -⟩ := hc
      refine (h.isPlainNode hk).isRead_of_role hkind fun q hq hassignment => ?_
      cases hfeeds with
      | parenthesis hparent hkind | operand hparent hkind | branch hparent hkind =>
        simp [Option.some.inj (hparent.symm.trans hq), hassignment] at hkind
    · change _ ∈ (m.expressionFlows c).getD []
      rw [Query.getD_eq_of_outcome (IsPlainBody.expressionFlows_feeds hfeeds)]
      exact List.mem_singleton_self _

end Complete

theorem exists_isPlainBody (hplain : m.IsPlain) (hlegible : m.IsLegible) (hplanted : m.IsPlanted)
    (hf : f < m.callables.size) (hcontrol : m.plan.control.contains (m.qualifiedName f) = false)
    (hssa : m.plan.ssa.contains (m.qualifiedName f) = false) : ∃ g, m.IsPlainBody f g := by
  have hgraph : (m.controlGraph? false f).outcome = .ok (some (.ofLayers f [] (m.control f))) :=
    ControlFlow.outcome_controlGraph? hcontrol rfl
  have hnames := ControlFlow.outcome_lookUpNames hplain hgraph
  exact ⟨_, hplain, hlegible, hplanted, hf, hgraph, ValueFlow.outcome_form?_eq_some.2 ⟨hgraph, hssa, hnames, rfl⟩⟩

end FlowModel

namespace FlowGraph

variable {c : FlowGraph} {p : Policy} {limit : Int} {f : CallableId} {g : ControlGraph} {x : NodeId}
  {source a : FlowNode}

theorem leads_of_flows (hp : p.IsOpen) (hpos : 0 ≤ limit) (h : Relation.ReflTransGen c.Flows source a) :
    (c.rules p .data).Leads limit source a 0 := by
  induction h with
  | refl => exact .start
  | @tail a b _ hflows ih =>
    obtain ⟨steps, hsteps⟩ := exists_steps (g := c) hp.isTotal .data a
    exact .step ih hsteps ((mem_steps_iff hsteps).2 (.inside hflows)) (hp.barrier _ _) rfl hpos

theorem carried_of_leads (h : c.IsPlainBody f g) (hp : p.IsOpen) (hsource : c.Carried f g x source) {depth : Nat}
    (hleads : (c.rules p .data).Leads limit source a depth) : c.Carried f g x a := by
  induction hleads with
  | start => exact hsource
  | step _ hsteps hmem _ _ _ ih =>
    cases (mem_steps_iff hsteps).1 hmem with
    | inside hflows => exact ih.step h hflows
    | jump hjump => exact absurd hjump (ih.not_mem_jumpFlows h)
    | added hadded =>
      rw [Query.getD_eq_of_outcome (hp.flow _)] at hadded
      exact absurd hadded List.not_mem_nil

end FlowGraph

/--
In a program without calls whose bodies are plain, a search for the flow of values from a parameter comes to an end, and
it reaches a read just if some run to it makes it carry the parameter.
-/
theorem Session.reaches_iff_carries (a : Arena) (plan : FailurePlan) (settings : Settings) (p : Policy)
    (limit : Nat) (f : CallableId) (i : Nat) (x : Parameter)
    (hrooted : a.IsRooted) (hlegible : a.isLegible = true) (hplain : (analyse a plan settings).IsPlain)
    (hcontrol : plan.control.contains ((analyse a plan settings).qualifiedName f) = false)
    (hssa : plan.ssa.contains ((analyse a plan settings).qualifiedName f) = false)
    (hf : f < (analyse a plan settings).callables.size)
    (hx : ((analyse a plan settings).callableD f).parameters[i]? = some x)
    (hname : p.name.isKey = true) (hlimit : p.maxCallDepth = .int limit) (hp : p.IsOpen) :
    ∃ g r, ((analyse a plan settings).controlGraph? false f).outcome = .ok (some g) ∧
      ((analyse a plan settings).reach p .data (.parameter f i)).outcome = .ok r ∧
      ∀ u, a.kind u = .identifier → (analyse a plan settings).isRead u = true →
        (r.reaches (.expression u) = true ↔
          ∃ t, g.Visits t u ∧ (analyse a plan settings).Carries x.node t u) := by
  obtain ⟨g, h⟩ := FlowModel.exists_isPlainBody hplain (Outline.isLegible_ofArena plan hlegible)
    (.ofArena plan hrooted) hf hcontrol hssa
  obtain ⟨b, hb, hbounds⟩ := FlowModel.exists_bounds (analyse a plan settings).toFlowModel i
  have hempty (q : Query (List FlowNode)) (hq : q.outcome = .ok []) :
      q.Gives ((analyse a plan settings).ArePlaces b) := by
    intro ys hys
    obtain rfl := Except.ok.inj (hq.symm.trans hys)
    exact .nil
  have hfinite : {y | Relation.ReflTransGen ((analyse a plan settings).rules p .data).Step
      (.parameter f i) y}.Finite :=
    FlowGraph.finite_reachable hbounds ⟨fun y _ => hempty _ (hp.flow y), fun y _ => hempty _ (hp.taint y)⟩ ⟨hf, hb⟩
  have hsource : ∃ text, (analyse a plan settings).describeFlow (.parameter f i) = .ok text := by
    unfold ValueFlow.describeFlow
    dsimp only
    rw [hx]
    exact ⟨_, rfl⟩
  obtain ⟨-, r, hr, hreaches⟩ := FlowGraph.reach_is_exact _ p .data (.parameter f i) limit hname hlimit hp.isTotal
    hsource hfinite
  refine ⟨g, r, h.graph, hr, fun u hkind hread => ?_⟩
  rw [hreaches]
  constructor
  · rintro ⟨depth, hleads⟩
    cases FlowGraph.carried_of_leads h hp (.parameter hx rfl) hleads with
    | value _ _ hvisits hcarries => exact ⟨_, hvisits, hcarries⟩
    | assignment hassignment => exact absurd (hassignment.symm.trans hkind) (by decide)
  · rintro ⟨t, hvisits, hcarries⟩
    have hflows := FlowModel.flows_of_carries h hx hcarries hvisits fun _ => hread
    exact ⟨0, FlowGraph.leads_of_flows hp (Int.natCast_nonneg limit) hflows⟩

/-! A function `f(x, y)` with the body `while (x) y = x; return y;`. -/

namespace Transfer

open Sample

def nodes : Array Node := #[
  unit [1],
  function 0 2 5 "f",
  parameterList 1 [3, 4],
  node .variableDeclaration (some 2) "parameters" [] [("name", .text "x"), ("id", .int 3)],
  node .variableDeclaration (some 2) "parameters" [] [("name", .text "y"), ("id", .int 4)],
  block 1 [6, 12],
  node .whileStatement (some 5) "statements" [("condition", .one 7), ("body", .one 8)] [],
  mention 6 "condition" 3,
  node .expressionStatement (some 6) "body" [("expression", .one 9)] [],
  assign 8 10 11,
  mention 9 "leftHandSide" 4,
  mention 9 "rightHandSide" 3,
  node .returnStatement (some 5) "statements" [("expression", .one 13)] [],
  mention 12 "expression" 4]

def arena : Arena :=
  arenaOf nodes (by decide +kernel)

def analysis : FlowGraph :=
  Session.analyse arena {} {}

theorem isRooted : arena.IsRooted where
  nodup := by decide +kernel
  inside := by decide +kernel
  parent := by decide +kernel

theorem isPlainExpression_mention {n y : NodeId} (h : (n, y) ∈ [(7, 3), (11, 3), (13, 4)]) :
    analysis.IsPlainExpression n := by
  have hnames : ∀ q ∈ [(7, 3), (11, 3), (13, 4)], analysis.findVariable q.1 = .ok (some q.2) ∧
      analysis.isLocal q.2 = true := by
    decide +kernel
  exact .identifier (hnames _ h)

theorem isPlainStatement_body : analysis.IsPlainStatement 5 := by
  have hassignment : analysis.IsPlainAssignment 9 10 11 :=
    { kind := rfl
      operator := rfl
      left := rfl
      name := ⟨4, by decide +kernel, by decide +kernel⟩
      right := rfl
      plain := isPlainExpression_mention (y := 3) (by decide)
      children := by decide +kernel }
  have hstatement : analysis.IsPlainStatement 8 := .assignment rfl rfl hassignment
  have hloop : analysis.IsPlainStatement 6 := by
    have hcondition : analysis.arena.child? 6 "condition" = some 7 := rfl
    have hbody : analysis.arena.child? 6 "body" = some 8 := rfl
    refine .loop (.inr rfl) (fun b hb => ?_) (fun c hc => ?_) (fun b hb => ?_) (fun b hb => ?_)
    · simp [show analysis.arena.child? 6 "initializationExpression" = none from rfl] at hb
    · exact Option.some.inj (hcondition.symm.trans hc) ▸ isPlainExpression_mention (y := 3) (by decide)
    · exact Option.some.inj (hbody.symm.trans hb) ▸ hstatement
    · simp [show analysis.arena.child? 6 "loopExpression" = none from rfl] at hb
  have hreturn : analysis.IsPlainStatement 12 := by
    have hvalue : analysis.arena.child? 12 "expression" = some 13 := rfl
    refine .returns rfl fun v hv => ?_
    exact Option.some.inj (hvalue.symm.trans hv) ▸ isPlainExpression_mention (y := 4) (by decide)
  have hitems : analysis.arena.items 5 "statements" = [6, 12] := by decide +kernel
  refine .block rfl ?_
  exact List.forall_mem_cons.2 ⟨hloop, List.forall_mem_singleton.2 hreturn⟩

theorem callableD_succ (f : CallableId) : analysis.callableD (f + 1) = default := by
  have hsize : analysis.callables.size = 1 := by decide +kernel
  unfold Outline.callableD
  rw [Array.getD_eq_getD_getElem?, Array.getElem?_eq_none (by rw [hsize]; exact Nat.succ_le_succ (Nat.zero_le f))]
  rfl

theorem isPlain : analysis.IsPlain where
  calls n := by
    by_cases hn : n < 14
    · revert n
      decide
    · rw [Arena.kind, Arena.node_of_not_lt hn]
      decide
  invocations f := by
    cases f with
    | zero => decide +kernel
    | succ f => rfl
  bodies f body hbody := by
    cases f with
    | zero =>
      have hfive : (analysis.callableD 0).body = some 5 := by decide +kernel
      exact Option.some.inj (hfive.symm.trans hbody) ▸ isPlainStatement_body
    | succ f =>
      rw [callableD_succ] at hbody
      simp [show (default : Callable).body = none from rfl] at hbody

theorem isOpen_openPolicy : Sample.openPolicy.IsOpen where
  barrier _ _ := rfl
  flow _ := rfl
  taint _ := rfl

def search : Search :=
  (Search.next (analysis.rules Sample.openPolicy .data))^[6]
    (.start (.parameter 0 1) (analysis.flowOwner? (.parameter 0 1)))

theorem search_eq : search.queue = [] ∧ search.notes.outcome = .ok () ∧
    (search.reached.map (·.1)).contains (.expression 13) = true ∧
    (search.reached.map (·.1)).contains (.expression 11) = false := by
  decide +kernel

/-- The parameter `y` reaches the returned `y`, on the runs that never come to the body of the loop, but no `x`. -/
theorem reaches_iff_carries_transfer : ∃ g r,
    (analysis.controlGraph? false 0).outcome = .ok (some g) ∧
    (analysis.reach Sample.openPolicy .data (.parameter 0 1)).outcome = .ok r ∧
    (r.reaches (.expression 13) = true ∧ ∃ t, g.Visits t 13 ∧ analysis.Carries 4 t 13) ∧
    r.reaches (.expression 11) = false ∧ ¬∃ t, g.Visits t 11 ∧ analysis.Carries 4 t 11 := by
  obtain ⟨y, hy, hnode⟩ : ∃ y, (analysis.callableD 0).parameters[1]? = some y ∧ y.node = 4 :=
    ⟨_, rfl, by decide +kernel⟩
  obtain ⟨g, r, hg, hr, hreaches⟩ := Session.reaches_iff_carries arena {} {} Sample.openPolicy 2 0 1 y isRooted
    (by decide +kernel) isPlain rfl rfl (by decide +kernel) hy rfl rfl isOpen_openPolicy
  rw [hnode] at hreaches
  obtain ⟨hqueue, hnotes, hresult, hassigned⟩ := search_eq
  have hfound := FlowGraph.outcome_reach rfl rfl ⟨_, rfl⟩ (Search.run_eq_iterate hqueue) hnotes
  obtain rfl := Except.ok.inj (hfound.symm.trans hr)
  refine ⟨g, _, hg, hr, ⟨hresult, (hreaches 13 rfl rfl).1 hresult⟩, hassigned, fun hcarries => ?_⟩
  exact Bool.false_ne_true (hassigned.symm.trans ((hreaches 11 rfl rfl).2 hcarries))

end Transfer

end ContractFlow
