import Re2cCodegen.Block

/-! Re-entering a lexer with storable state: after the prelude of a rule, the entry of the
block leads to the initial state of the rule's next condition in all three code models. -/

namespace Re2cCodegen.Reentry

open Re2cCodegen.Options Re2cCodegen.Dfa Re2cCodegen.Output Re2cCodegen.TagActions
  Re2cCodegen.Transitions Re2cCodegen.Dispatch Re2cCodegen.FinalTags Re2cCodegen.States
  Re2cCodegen.Conditions Re2cCodegen.Layout Re2cCodegen.Block

structure StorableCondBlock (env : Env) (block : OutputBlock) (dfas : List Adfa) (start : Label) :
    Prop where
  storable : block.opts.storableState = true
  target : block.opts.target = .code
  startLabel : block.startLabel = some start
  conds : ∀ d ∈ dfas, ∃ c ∈ block.conds, c.name = d.cond
  named : ∀ d ∈ dfas, d.cond ≠ ""
  distinct : (dfas.map (·.cond)).Nodup
  nonempty : ∀ d ∈ dfas, d.states ≠ []
  labels : (dfas.flatMap fun d => d.states.map fun s => (d.label s).index).Nodup
  startFresh : block.opts.codeModel = .recFunc →
    start.index ∉ dfas.flatMap fun d => d.states.map fun s => (d.label s).index
  enumDistinct : (block.conds.map fun c => env.enumVal (block.opts.condEnumPrefix ++ c.name)).Nodup
  enumPosition : block.opts.codeModel = .gotoLabel →
    block.opts.computedGotos ∨ block.opts.nestedIfs → ∀ i (h : i < block.conds.length),
      env.enumVal (block.opts.condEnumPrefix ++ (block.conds.get ⟨i, h⟩).name) = i
  enumInitial : block.opts.codeModel = .loopSwitch → ∀ d ∈ dfas,
    env.enumVal (block.opts.condEnumPrefix ++ d.cond) = (d.label (d.states.headD 0)).index
  /-- The case that `gen_storable_state_cases` widens to [-1, 1) is that of state 0. -/
  firstState : block.opts.codeModel = .loopSwitch →
    ((dfas.headD default).label ((dfas.headD default).states.headD 0)).index = 0

theorem StorableCondBlock.cond_ne_of_before {env : Env} {block : OutputBlock} {dfas : List Adfa}
    {start : Label} (hb : StorableCondBlock env block dfas start) {pre post : List Adfa}
    {next : Adfa} (hsplit : dfas = pre ++ next :: post) : ∀ d ∈ pre, d.cond ≠ next.cond :=
  fun d hd heq => by
    have := hb.distinct
    simp only [hsplit, List.map_append, List.map_cons] at this
    exact List.disjoint_of_nodup_append this (List.mem_map_of_mem _ hd) (heq ▸ List.mem_cons_self _ _)

def Reenters (env : Env) (code : BlockCode) (opts : Opts) (m : Mem) (dfa : Adfa) : Prop :=
  let s0 := dfa.states.headD 0
  let body := ((groups dfa dfa.states).headD []).flatMap (stateCode opts dfa)
  match code with
  | .stmts cs =>
    if opts.codeModel = .loopSwitch then
      exec env cs m = exec env body (m.assign [.yystate] ⟨m.state, []⟩)
    else
      ∃ k m' rest, { m' with tables := m.tables } = m ∧
        ∀ n, runGoto env cs (n + k) cs m =
          runGoto env cs n (genDfaAsBlocksWithLabels opts dfa ++ rest) m'
  | .functions fns =>
    fns.find? (·.name == .state (dfa.label s0).index) =
      some ⟨.state (dfa.label s0).index, needYychArg dfa s0, body⟩ ∧
    ∃ k, ∀ n, runFn env fns (n + k) .entry m = runFn env fns n (.state (dfa.label s0).index) m

theorem reenters_of_gotoRun {env : Env} {cs : List Code} {opts : Opts} {m m' : Mem} {dfa : Adfa}
    (rest : List Code) (hmodel : opts.codeModel ≠ .loopSwitch)
    (hm : { m' with tables := m.tables } = m)
    (h : Relation.ReflTransGen (GotoStep env cs) (cs, m)
      (genDfaAsBlocksWithLabels opts dfa ++ rest, m')) :
    Reenters env (.stmts cs) opts m dfa := by
  obtain ⟨k, hk⟩ := run_of_reflTransGen (fun n (p : List Code × Mem) => runGoto env cs n p.1 p.2)
    runGoto_of_gotoStep h
  simp only [Reenters, if_neg hmodel]
  exact ⟨k, m', rest, hm, hk⟩

theorem reenters_of_callRun {env : Env} {fns : List FnDef} {opts : Opts} {m : Mem} {dfa : Adfa}
    (hfind : fns.find? (·.name == .state (dfa.label (dfa.states.headD 0)).index) =
      some ⟨.state (dfa.label (dfa.states.headD 0)).index, needYychArg dfa (dfa.states.headD 0),
        ((groups dfa dfa.states).headD []).flatMap (stateCode opts dfa)⟩)
    (h : Relation.ReflTransGen (CallStep env fns) (.entry, m)
      (.state (dfa.label (dfa.states.headD 0)).index, m)) :
    Reenters env (.functions fns) opts m dfa :=
  ⟨hfind, run_of_reflTransGen (fun n (p : Fn × Mem) => runFn env fns n p.1 p.2) runFn_of_callStep h⟩

theorem reenters_gotoLabel {env : Env} {block : OutputBlock} {dfas : List Adfa} {start : Label}
    (hb : StorableCondBlock env block dfas start) (hmodel : block.opts.codeModel = .gotoLabel)
    (sgOpts : Opts) (fill : List (CaseLbl × List Code)) (hfill : ∀ c ∈ fill, ∃ k : Nat, c.1 = .number k)
    {next : Adfa} (hnext : next ∈ dfas) (m : Mem) (hstate : m.state = some (-1))
    (hcond : m.cond = some (env.enumVal (block.opts.condEnumPrefix ++ next.cond))) :
    Reenters env (genBlockCode block dfas
      (some (stateGotoCode .gotoLabel (stateGotoStmts .gotoLabel sgOpts fill start.index)))) block.opts m next := by
  have hcb : (dfas.headD default).cond ≠ "" := by
    cases dfas with
    | nil => cases hnext
    | cons d _ => exact hb.named d (List.mem_cons_self _ _)
  have hcb' : ((dfas.headD default).cond != "") = true := by simpa using hcb
  unfold genBlockCode
  simp only [hmodel, hb.storable, hb.startLabel, stateGotoCode, hcb',
    reduceCtorEq, if_false, ne_eq, not_false_eq_true, if_true, Bool.not_true, Bool.false_and,
    Bool.false_eq_true, List.nil_append, decide_True, Bool.and_true, List.append_assoc,
    List.singleton_append, List.cons_append]
  -- the table of condition labels, the only statements before the `YYGETSTATE` switch
  generalize hT : (if block.opts.computedGotos = true then genCondTable block.conds else []) = T
  have hTs : ∀ c ∈ T, c.straight = true := by
    subst hT; split <;> simp [genCondTable, Code.straight]
  set mt := (exec env T m).mem with hmt
  have hTexec : exec env T m = .next mt := exec_straight env T hTs m
  have hmt_eq : { mt with tables := m.tables } = m := by
    rw [hmt]; subst hT; split <;> simp [genCondTable, step, Outcome.mem]
  have hmt_cond : mt.cond = m.cond ∧ mt.state = m.state := by
    rw [← hmt_eq]; exact ⟨rfl, rfl⟩
  have hTlbl : ∀ q : Lbl → Bool, T.all (·.labelOk q) = true := fun q => by
    subst hT; split <;> rfl
  obtain ⟨pre, post, rfl⟩ := List.append_of_mem hnext
  obtain ⟨c, hc, hcn⟩ := hb.conds next hnext
  obtain ⟨i, rfl⟩ := List.get_of_mem hc
  have hpre := hb.cond_ne_of_before rfl
  refine reenters_of_gotoRun (genDfasAsBlocks block.opts true post) (by rw [hmodel]; decide) hmt_eq
    (.tail (b := ((genCondGoto block.opts block.conds false).1 ++
      genDfasAsBlocks block.opts true (pre ++ next :: post), mt))
    (.single (gotoStep_of (l := .num start.index) ?h1 ?h2)) (gotoStep_of (l := .cond next.cond) ?h3 ?h4))
  case h1 =>
    rw [exec_append, hTexec, Outcome.bind_next, exec_cons, step,
      exec_stateGotoStmts _ _ _ hfill _ env mt (hmt_cond.2.trans hstate)]
    rfl
  case h2 =>
    rw [afterLabel_append (hTlbl _)]
    show afterLabel _ (_ ++ _) = _
    rw [afterLabel_append (by split <;> rfl), afterLabel_label_cons]
  case h3 =>
    rw [exec_append, exec_genCondGoto block.opts block.conds false env mt hb.target i.2
      (by rw [hmt_cond.1, hcond, hcn]) hb.enumDistinct (hb.enumPosition hmodel) ?_, hcn]
    · rfl
    · intro hcg
      rw [hmt]
      subst hT
      simp [hcg, genCondTable, step, Outcome.mem]
  case h4 =>
    rw [afterLabel_append (hTlbl _)]
    show afterLabel _ (_ ++ _) = _
    rw [afterLabel_append (by split <;> rfl)]
    show afterLabel _ (_ ++ _) = _
    rw [afterLabel_append (genCondGoto_labelOk _ _ _ _), genDfasAsBlocks, List.flatMap_append,
      afterLabel_append, List.flatMap_cons, if_pos rfl, List.append_assoc, List.append_assoc,
      afterLabel_append (by split <;> rfl), List.singleton_append, afterLabel_label_cons]
    · rfl
    · simp only [List.all_flatMap]
      refine List.all_eq_true.2 fun d hd => ?_
      rw [if_pos trivial, List.all_append, List.all_append]
      refine Bool.and_eq_true_iff.2 ⟨Bool.and_eq_true_iff.2 ⟨by split <;> rfl, ?_⟩,
        genDfaAsBlocksWithLabels_labelOk _ _ _ (fun _ => rfl) (fun _ => rfl)⟩
      simpa using hpre d hd

theorem reenters_loopSwitch {env : Env} {block : OutputBlock} {dfas : List Adfa} {start : Label}
    (hb : StorableCondBlock env block dfas start) (hmodel : block.opts.codeModel = .loopSwitch)
    (stateGoto : Option StateGoto) {next : Adfa} (hnext : next ∈ dfas) (m : Mem)
    (hstate : m.state = some (env.enumVal (block.opts.condEnumPrefix ++ next.cond))) :
    Reenters env (genBlockCode block dfas stateGoto) block.opts m next := by
  obtain ⟨d0, ds, rfl⟩ := List.exists_cons_of_ne_nil (List.ne_nil_of_mem hnext)
  obtain ⟨rest0, h0⟩ := genDfaAsSwitchCases_eq_cons block.opts d0 (hb.nonempty d0 (List.mem_cons_self _ _))
  unfold genBlockCode
  simp only [Reenters, hmodel, if_true, hb.storable, Bool.not_true, Bool.false_and,
    Bool.false_eq_true, if_false, List.nil_append]
  have hv : (m.assign [.yystate] ⟨m.state, []⟩).get .yystate =
      some ((next.label (next.states.headD 0)).index : Int) := by
    simp [Mem.assign, Mem.get, hstate, hb.enumInitial hmodel next hnext]
  rw [exec_cons, genYystateDef, if_pos hb.storable, step, Outcome.bind_next, exec_cons, exec_nil_eq,
    Outcome.bind_next', wrapDfasInLoopSwitch, step, exec_cons, exec_nil_eq, Outcome.bind_next']
  rw [step_switch, Expr.eval]
  simp only [Expr.val, Expr.eval]
  rw [hv, genStorableStateCases, List.flatMap_cons, h0]
  simp only [hb.storable, hmodel, Bool.not_true, Bool.false_or, reduceCtorEq, decide_False, if_false,
    List.cons_append, List.append_assoc]
  have hlabels := hb.labels
  rw [List.flatMap_cons] at hlabels
  rcases List.mem_cons.1 hnext with rfl | hnext'
  · have h0idx : (next.label (next.states.headD 0)).index = 0 := hb.firstState hmodel
    rw [h0idx, List.find?_cons_of_pos _ rfl]
  · obtain ⟨restn, hn⟩ := genDfaAsSwitchCases_eq_cons block.opts next (hb.nonempty next hnext)
    have hne : (next.label (next.states.headD 0)).index ≠ 0 := fun h => by
      have h0idx : (d0.label (d0.states.headD 0)).index = 0 := hb.firstState hmodel
      refine List.disjoint_of_nodup_append hlabels
        (List.mem_map_of_mem _ (headD_mem (hb.nonempty d0 (List.mem_cons_self _ _)) 0))
        (List.mem_flatMap.2 ⟨next, hnext', ?_⟩)
      rw [h0idx, ← h]
      exact List.mem_map_of_mem _ (headD_mem (hb.nonempty next hnext) 0)
    have hall := nodup_switchCaseLabels block.opts (d0 :: ds) hb.labels
    rw [List.flatMap_cons, h0, List.cons_append, List.map_cons] at hall
    have hnum : ∀ c ∈ rest0 ++ ds.flatMap (genDfaAsSwitchCases block.opts), ∃ k : Nat, c.1 = .number k :=
      fun c hc => by
        rcases List.mem_append.1 hc with hc | hc
        · exact genDfaAsSwitchCases_number _ d0 c (h0 ▸ List.mem_cons_of_mem _ hc)
        · obtain ⟨d, -, hd⟩ := List.mem_flatMap.1 hc
          exact genDfaAsSwitchCases_number _ d c hd
    have hx := List.mem_append_right rest0
      (List.mem_flatMap.2 ⟨next, hnext', hn ▸ List.mem_cons_self _ restn⟩)
    rw [List.find?_cons_of_neg _ (by simp [CaseLbl.hits] at hne ⊢; omega), ← List.append_assoc, List.find?_append,
      find?_hits_number env (List.nodup_cons.1 hall).2 hnum hx rfl, Option.or_some]

theorem reenters_recFunc {env : Env} {block : OutputBlock} {dfas : List Adfa} {start : Label}
    (hb : StorableCondBlock env block dfas start) (hmodel : block.opts.codeModel = .recFunc)
    (sgOpts : Opts) (fill : List (CaseLbl × List Code)) (hfill : ∀ c ∈ fill, ∃ k : Nat, c.1 = .number k)
    {next : Adfa} (hnext : next ∈ dfas) (m : Mem) (hstate : m.state = some (-1))
    (hcond : m.cond = some (env.enumVal (block.opts.condEnumPrefix ++ next.cond))) :
    Reenters env (genBlockCode block dfas
      (some (stateGotoCode .recFunc (stateGotoStmts .recFunc sgOpts fill start.index)))) block.opts m next := by
  have hcb : (dfas.headD default).cond ≠ "" :=
    hb.named _ (headD_mem (List.ne_nil_of_mem hnext) _)
  have hnames : ∀ f ∈ dfas.flatMap (genDfaAsRecursiveFunctions block.opts),
      (∃ d ∈ dfas, ∃ s ∈ d.states, f.name = .state (d.label s).index) ∨ ∃ d ∈ dfas, f.name = .cond d.cond :=
    fun f hf => by
      obtain ⟨d, hd, hf⟩ := List.mem_flatMap.1 hf
      rcases name_of_mem_genDfaAsRecursiveFunctions hf with ⟨s, hs, h⟩ | h
      · exact .inl ⟨d, hd, s, hs, h⟩
      · exact .inr ⟨d, hd, h⟩
  unfold genBlockCode
  simp only [hmodel, genStartFunction, hb.startLabel, Option.getD_some, if_pos hcb,
    hb.storable, if_true, stateGotoCode, List.singleton_append]
  obtain ⟨c, hc, hcn⟩ := hb.conds next hnext
  refine reenters_of_callRun ?f4 (.tail (b := (.cond next.cond, m)) (.tail (b := (.state start.index, m))
    (.single (callStep_of (d := ⟨.entry, false, stateGotoStmts .recFunc sgOpts fill start.index⟩) ?f1 ?e1))
    (callStep_of (d := genCondFunc block.opts block.conds start.index) ?f2 ?e2))
    (callStep_of (d := ⟨.cond next.cond, false,
      [.tailcall (.state (next.label (next.states.headD 0)).index) false]⟩) ?f3 ?e3))
  case f1 =>
    rw [List.find?_append, List.find?_eq_none.2 fun f hf => ?_]
    · rfl
    · rcases hnames f hf with ⟨d, -, s, -, h⟩ | ⟨d, -, h⟩ <;> simp [h]
  case e1 =>
    rw [exec_stateGotoStmts _ _ _ hfill _ env m hstate]
    rfl
  case f2 =>
    refine find?_append_cons (fun f hf => ?_) (by simp [genCondFunc])
    rcases hnames f hf with ⟨d, hd, s, hs, h⟩ | ⟨d, -, h⟩
    · simp only [h, beq_iff_eq, Fn.state.injEq, Bool.beq_eq_decide_eq, decide_eq_false_iff_not]
      intro heq
      exact hb.startFresh hmodel (List.mem_flatMap.2 ⟨d, hd, heq ▸ List.mem_map_of_mem _ hs⟩)
    · simp [h]
  case e2 =>
    simp only [genCondFunc, exec_cons, exec_nil_eq, Outcome.bind_next']
    rw [step_condSwitch _ _ (fun c => [.tailcall (.cond c.name) false]) _ env m hc (by rw [hcn]; exact hcond)
      hb.enumDistinct, hcn]
    rfl
  case f3 =>
    obtain ⟨pre, post, hsplit⟩ := List.append_of_mem hnext
    have hpre := hb.cond_ne_of_before hsplit
    rw [hsplit, List.flatMap_append, List.flatMap_cons, genDfaAsRecursiveFunctions_eq, genCondEntry,
      if_neg (hb.named next hnext)]
    simp only [List.append_assoc, List.singleton_append, List.cons_append]
    rw [← List.append_assoc]
    refine find?_append_cons (fun f hf => ?_) (by simp)
    rcases List.mem_append.1 hf with hf | hf
    · obtain ⟨d, hd, hf⟩ := List.mem_flatMap.1 hf
      rcases name_of_mem_genDfaAsRecursiveFunctions hf with ⟨s, -, h⟩ | h
      · simp [h]
      · simp [h, hpre d hd]
    · obtain ⟨g, -, rfl⟩ := List.mem_map.1 hf
      rfl
  case e3 => rfl
  case f4 =>
    obtain ⟨g0rest, hg, hh⟩ := groups_eq_cons next (hb.nonempty next hnext)
    have hx : (⟨.state (next.label (next.states.headD 0)).index, needYychArg next (next.states.headD 0),
        ((groups next next.states).headD []).flatMap (stateCode block.opts next)⟩ : FnDef) ∈
        (dfas.flatMap (genDfaAsRecursiveFunctions block.opts)).filter FnDef.ofState := by
      refine List.mem_filter.2 ⟨List.mem_flatMap.2 ⟨next, hnext, ?_⟩, rfl⟩
      rw [genDfaAsRecursiveFunctions_eq, ← hh]
      exact List.mem_append_left _ (List.mem_map_of_mem _ (headD_mem (by rw [hg]; exact List.cons_ne_nil _ _) _))
    rw [find?_state_eq_filter, List.filter_append, List.find?_append,
      find?_eq_of_nodup_map (nodup_stateFunctionNames block.opts dfas hb.labels) hx fun _ _ => beq_iff_eq,
      Option.or_some]

theorem rule_prelude_reenters_next_cond {env : Env} {block : OutputBlock} {dfas : List Adfa}
    {start : Label} (hb : StorableCondBlock env block dfas start) (sgOpts : Opts)
    (fill : List (CaseLbl × List Code)) (hfill : ∀ c ∈ fill, ∃ k : Nat, c.1 = .number k)
    {dfa : Adfa} (hdfa : dfa ∈ dfas) (rule : Nat) {next : Adfa} (hnext : next ∈ dfas)
    (hnc : next.cond = (dfa.rules rule).semact.cond.getD dfa.cond)
    (m0 : Mem) (hm0 : m0.cond = some (env.enumVal (block.opts.condEnumPrefix ++ dfa.cond))) :
    ∃ m1, exec env (genRuleStateCond block.opts dfa ((dfa.rules rule).semact.cond.getD dfa.cond)) m0 =
        .next m1 ∧
      ∀ m, m.state = m1.state → m.cond = m1.cond →
        Reenters env (genBlockCode block dfas (some (stateGotoCode block.opts.codeModel
          (stateGotoStmts block.opts.codeModel sgOpts fill start.index)))) block.opts m next := by
  generalize (dfa.rules rule).semact.cond.getD dfa.cond = cond at hnc ⊢
  subst hnc
  refine ⟨_, exec_genRuleStateCond _ _ _ env m0, fun m hs hc => ?_⟩
  dsimp only at hs hc
  have hcond (hl : block.opts.codeModel ≠ .loopSwitch) :
      m.cond = some (env.enumVal (block.opts.condEnumPrefix ++ next.cond)) := by
    rw [hc]
    by_cases h : next.cond = dfa.cond
    · rw [if_neg fun h' => h'.1 h, hm0, h]
    · rw [if_pos ⟨h, fun h' => hl h'.1⟩]
  simp only [hb.storable, hb.named dfa hdfa, false_or, if_true] at hs
  cases hmodel : block.opts.codeModel with
  | gotoLabel =>
    simp only [hmodel, ne_eq, reduceCtorEq, not_false_eq_true, if_true] at hs hcond
    exact reenters_gotoLabel hb hmodel sgOpts fill hfill hnext m hs (hcond trivial)
  | loopSwitch =>
    simp only [hmodel, ne_eq, not_true_eq_false, if_false] at hs
    exact reenters_loopSwitch hb hmodel _ hnext m hs
  | recFunc =>
    simp only [hmodel, ne_eq, reduceCtorEq, not_false_eq_true, if_true] at hs hcond
    exact reenters_recFunc hb hmodel sgOpts fill hfill hnext m hs (hcond trivial)

def nestedStorableOpts : Opts :=
  { (default : Opts) with storableState := true, nestedIfs := true, condEnumPrefix := "yyc" }

def ruleDfa (cond : String) (s : StateId) (autogen : Bool) : Adfa :=
  { (default : Adfa) with
    state := fun _ => { (default : State) with
      label := ⟨s, true⟩
      action := .rule 0
      go := ⟨.switchIf (.ifs (.linear [])), [], tcid0, false⟩ }
    states := [s]
    rules := fun _ => ⟨0, 0, 0, ⟨none, autogen, ""⟩⟩
    cond := cond }

def twoCondBlock : OutputBlock :=
  { (default : OutputBlock) with
    opts := nestedStorableOpts
    conds := [⟨"b", 0⟩, ⟨"a", 1⟩]
    startLabel := some ⟨2, true⟩ }

def twoCondDfas : List Adfa := [ruleDfa "b" 0 true, ruleDfa "a" 1 false]

def positionalEnv : Env := { (default : Env) with enumVal := fun s => if s = "yyca" then 1 else 0 }

theorem rule_prelude_reenters_positional :
    StorableCondBlock positionalEnv twoCondBlock twoCondDfas ⟨2, true⟩ ∧
    ∃ m1, exec positionalEnv (genRuleStateCond twoCondBlock.opts (ruleDfa "b" 0 true)
        (((ruleDfa "b" 0 true).rules 0).semact.cond.getD (ruleDfa "b" 0 true).cond))
        { (default : Mem) with cond := some 0 } = .next m1 ∧
      ∀ m, m.state = m1.state → m.cond = m1.cond →
        Reenters positionalEnv (genBlockCode twoCondBlock twoCondDfas (some (stateGotoCode
          twoCondBlock.opts.codeModel (stateGotoStmts twoCondBlock.opts.codeModel nestedStorableOpts [] 2))))
          twoCondBlock.opts m (ruleDfa "b" 0 true) :=
  have hb : StorableCondBlock positionalEnv twoCondBlock twoCondDfas ⟨2, true⟩ :=
    ⟨rfl, rfl, rfl, by decide, by decide, by decide, by decide, by decide, by decide, by decide,
      by decide, by decide, by decide⟩
  ⟨hb, rule_prelude_reenters_next_cond hb nestedStorableOpts [] (fun _ h => absurd h (List.not_mem_nil _))
    (List.mem_cons_self _ _) 0 (List.mem_cons_self _ _) rfl _ rfl⟩

def swappedEnv : Env := { (default : Env) with enumVal := fun s => if s = "yycb" then 1 else 0 }

def twoCondCode : List Code :=
  match genBlockCode twoCondBlock twoCondDfas
    (some (stateGotoCode .gotoLabel (stateGotoStmts .gotoLabel nestedStorableOpts [] 2))) with
  | .stmts cs => cs
  | .functions _ => []

theorem genBlockCode_twoCond : genBlockCode twoCondBlock twoCondDfas
    (some (stateGotoCode .gotoLabel (stateGotoStmts .gotoLabel nestedStorableOpts [] 2))) =
    .stmts twoCondCode := rfl

theorem twoCondCode_eq : twoCondCode =
    [.block (stateGotoStmts .gotoLabel nestedStorableOpts [] 2), .label (.num 2)] ++
      ((genCondGoto nestedStorableOpts twoCondBlock.conds false).1 ++
        genDfasAsBlocks nestedStorableOpts true twoCondDfas) := rfl

theorem twoCondCode_b : genDfaAsBlocksWithLabels nestedStorableOpts (ruleDfa "b" 0 true) =
    [.label (.num 0), .stateSet (.num (-1)), .goto (.cond "b")] := by
  simp [genDfaAsBlocksWithLabels, ruleDfa, stateCode, emitState, emitAction, emitRule, genFintags,
    genRuleStateCond, genGo, genGoswif, genGoif, genGoifl, genDebug, Adfa.label, Adfa.action, Adfa.go,
    nestedStorableOpts]
  rfl

theorem twoCondCode_a : genDfaAsBlocksWithLabels nestedStorableOpts (ruleDfa "a" 1 false) =
    [.label (.num 1), .stateSet (.num (-1)), .text ""] := by
  simp [genDfaAsBlocksWithLabels, ruleDfa, stateCode, emitState, emitAction, emitRule, genFintags,
    genRuleStateCond, genGo, genGoswif, genGoif, genGoifl, genDebug, Adfa.label, Adfa.action, Adfa.go,
    nestedStorableOpts]
  rfl

theorem afterLabel_twoCond_b : afterLabel (.cond "b") twoCondCode =
    some (genDfaAsBlocksWithLabels nestedStorableOpts (ruleDfa "b" 0 true) ++
      genDfasAsBlocks nestedStorableOpts true [ruleDfa "a" 1 false]) := by
  rw [twoCondCode_eq, @afterLabel_append (.cond "b")
    [.block (stateGotoStmts .gotoLabel nestedStorableOpts [] 2), .label (.num 2)] (by decide),
    afterLabel_append (genCondGoto_labelOk _ _ _ _)]
  rfl

theorem afterLabel_twoCond_a : afterLabel (.cond "a") twoCondCode =
    some (genDfaAsBlocksWithLabels nestedStorableOpts (ruleDfa "a" 1 false)) := by
  rw [twoCondCode_eq, @afterLabel_append (.cond "a")
    [.block (stateGotoStmts .gotoLabel nestedStorableOpts [] 2), .label (.num 2)] (by decide),
    afterLabel_append (genCondGoto_labelOk _ _ _ _)]
  simp only [twoCondDfas, genDfasAsBlocks, List.flatMap_cons, List.flatMap_nil, twoCondCode_b, twoCondCode_a]
  rfl

theorem runGoto_swapped_b (n : Nat) : ∀ (rest : List Code) (m : Mem),
    runGoto swappedEnv twoCondCode n
      (genDfaAsBlocksWithLabels nestedStorableOpts (ruleDfa "b" 0 true) ++ rest) m = none := by
  induction n with
  | zero => intro _ _; rfl
  | succ n ih =>
    intro rest m
    have hexec : exec swappedEnv (genDfaAsBlocksWithLabels nestedStorableOpts (ruleDfa "b" 0 true) ++ rest) m =
        .jump { m with state := some (-1) } (.goto (.cond "b")) := by
      rw [twoCondCode_b]
      rfl
    simp only [runGoto, hexec, afterLabel_twoCond_b]
    exact ih _ _

theorem runGoto_swapped_entry (j : Nat) :
    runGoto swappedEnv twoCondCode (j + 3) twoCondCode { (default : Mem) with state := some (-1), cond := some 1 } =
      some (exec swappedEnv (genDfaAsBlocksWithLabels nestedStorableOpts (ruleDfa "a" 1 false))
        { (default : Mem) with state := some (-1), cond := some 1 }) := by
  set m : Mem := { (default : Mem) with state := some (-1), cond := some 1 }
  have h1 : GotoStep swappedEnv twoCondCode (twoCondCode, m)
      ((genCondGoto nestedStorableOpts twoCondBlock.conds false).1 ++
        genDfasAsBlocks nestedStorableOpts true twoCondDfas, m) := by
    refine gotoStep_of (l := .num 2) ?_ ?_
    · rw [twoCondCode_eq, exec_append, exec_cons, step,
        exec_stateGotoStmts _ _ _ (fun _ h => absurd h (List.not_mem_nil _)) _ _ m rfl]
      rfl
    · rw [twoCondCode_eq]
      rfl
  have h2 : GotoStep swappedEnv twoCondCode ((genCondGoto nestedStorableOpts twoCondBlock.conds false).1 ++
      genDfasAsBlocks nestedStorableOpts true twoCondDfas, m)
      (genDfaAsBlocksWithLabels nestedStorableOpts (ruleDfa "a" 1 false), m) := by
    refine gotoStep_of (l := .cond "a") ?_ afterLabel_twoCond_a
    rw [exec_append]
    have : (genCondGoto nestedStorableOpts twoCondBlock.conds false).1 = genCondGotoBinary twoCondBlock.conds 0 1 := rfl
    rw [this, exec_genCondGotoBinary _ _ m (i := 1) rfl 0 1 (by omega) le_rfl]
    rfl
  have h3 : exec swappedEnv (genDfaAsBlocksWithLabels nestedStorableOpts (ruleDfa "a" 1 false)) m =
      .next (exec swappedEnv (genDfaAsBlocksWithLabels nestedStorableOpts (ruleDfa "a" 1 false)) m).mem := by
    rw [twoCondCode_a]
    rfl
  rw [runGoto_of_gotoStep _ _ h1, runGoto_of_gotoStep _ _ h2, runGoto, h3]

theorem rule_prelude_reenters_swapped_enum :
    (twoCondBlock.conds.map fun c => swappedEnv.enumVal (twoCondBlock.opts.condEnumPrefix ++ c.name)) =
      [1, 0] ∧
    ¬ ∃ m1, exec swappedEnv (genRuleStateCond twoCondBlock.opts (ruleDfa "b" 0 true)
        (((ruleDfa "b" 0 true).rules 0).semact.cond.getD (ruleDfa "b" 0 true).cond))
        { (default : Mem) with cond := some 1 } = .next m1 ∧
      ∀ m, m.state = m1.state → m.cond = m1.cond →
        Reenters swappedEnv (genBlockCode twoCondBlock twoCondDfas (some (stateGotoCode
          twoCondBlock.opts.codeModel (stateGotoStmts twoCondBlock.opts.codeModel nestedStorableOpts [] 2))))
          twoCondBlock.opts m (ruleDfa "b" 0 true) := by
  refine ⟨by decide, ?_⟩
  rintro ⟨m1, h1, h2⟩
  rw [exec_genRuleStateCond] at h1
  have h := h2 { (default : Mem) with state := some (-1), cond := some 1 }
    (by rw [← Outcome.next.inj h1]; rfl) (by rw [← Outcome.next.inj h1]; rfl)
  rw [show twoCondBlock.opts.codeModel = .gotoLabel from rfl, genBlockCode_twoCond] at h
  obtain ⟨k, m', rest, -, hk⟩ := h
  have := hk 3
  rw [show 3 + k = k + 3 by omega, runGoto_swapped_entry] at this
  exact Option.noConfusion (this.trans (runGoto_swapped_b 3 rest m'))

end Re2cCodegen.Reentry
