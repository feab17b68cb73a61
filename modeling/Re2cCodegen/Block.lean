import Mathlib.Logic.Relation
import Re2cCodegen.Layout
import Re2cCodegen.Conditions

/-! The code of a block: its declarations, the `YYGETSTATE` switch through which a lexer with
storable state is re-entered, the dispatch on the condition, and its DFAs in the three code
models. -/

namespace Re2cCodegen.Block

open Re2cCodegen.Options Re2cCodegen.Dfa Re2cCodegen.Output Re2cCodegen.TagActions
  Re2cCodegen.Transitions Re2cCodegen.Dispatch Re2cCodegen.Accept Re2cCodegen.FinalTags
  Re2cCodegen.States Re2cCodegen.Conditions Re2cCodegen.Layout

/-- What `gen_state_goto` makes of a `getstate:re2c` directive: nothing for a target other
than code, a function in rec/func mode, and a block of statements otherwise. -/
inductive StateGoto
  | empty
  | block (stmts : List Code)
  | fndef (f : FnDef)

def genStateGotoCases (block : OutputBlock) : List (CaseLbl × List Code) :=
  block.fillGoto.map fun (k, body) => (.number k, body)

/-- `find_blocks` over the blocks of the output file and then of the header file. -/
def findBlocks (blocks : List OutputBlock) (names : List String) (directive : String) :
    Except String (List OutputBlock) :=
  names.mapM fun name =>
    match blocks.find? (·.name == name) with
    | some b => .ok b
    | none => .error ("cannot find block \x27" ++ name ++ "\x27 listed in `" ++ directive ++
        "` directive")

/-- The cases `gen_state_goto` gathers and the block whose start it enters: with no names,
those of every block but the `use` blocks and the first of them that generates code; else
those of the named blocks and the first of them. -/
def stateGotoBlocks (pblocks blocks : List OutputBlock) (names : List String) :
    Except String (List (CaseLbl × List Code) × OutputBlock) :=
  if names.isEmpty then
    let bs := pblocks.filter (!·.isUse)
    match bs.find? (·.startLabel.isSome) with
    | some b => .ok (bs.flatMap genStateGotoCases, b)
    | none => .error "none of the blocks in `getstate:re2c` generate any code"
  else do
    let bs ← findBlocks blocks names "getstate:re2c"
    match bs.find? (·.startLabel.isNone) with
    | some b => .error ("block \x27" ++ b.name ++ "\x27 does not generate code, so it " ++
        "should not be listed in `getstate:re2c` directive")
    | none => .ok (bs.flatMap genStateGotoCases, bs.headD default)

/-- The transfer to the start of the block whose start label is numbered `start`. -/
def gotoStart (codeModel : CodeModel) (start : Nat) : List Code :=
  match codeModel with
  | .gotoLabel => [.goto (.num start)]
  | .recFunc => [.tailcall (.state start) false]
  -- loop/switch mode puts these cases in the `yystate` switch
  | .loopSwitch => []

/-- The switch on `YYGETSTATE()`: the resumption after each `YYFILL`, and the start of the
block for the state -1 of a lexer that has not run yet, by its default or, with
`state_abort`, by a case of its own. -/
def stateGotoStmts (codeModel : CodeModel) (opts : Opts) (cases : List (CaseLbl × List Code))
    (start : Nat) : List Code :=
  let cases := if opts.stateAbort then
      (.number (-1), gotoStart codeModel start) :: cases ++ [(.dflt, [.abort])]
    else cases ++ [(.dflt, gotoStart codeModel start)]
  .switch .getState cases :: if opts.stateNext then [.label (.user opts.labelNext)] else []

/-- The switch as the lexer function in rec/func mode, as a block of code otherwise. -/
def stateGotoCode (codeModel : CodeModel) (stmts : List Code) : StateGoto :=
  if codeModel = .recFunc then .fndef ⟨.entry, false, stmts⟩ else .block stmts

theorem exec_stateGotoStmts (codeModel : CodeModel) (opts : Opts) (cases : List (CaseLbl × List Code))
    (hcases : ∀ c ∈ cases, ∃ k : Nat, c.1 = .number k) (start : Nat) (env : Env) (m : Mem)
    (hm : m.state = some (-1)) :
    exec env (stateGotoStmts codeModel opts cases start) m = exec env (gotoStart codeModel start) m := by
  have hnone : cases.find? (·.1.hits env (some (-1))) = none := List.find?_eq_none.2 fun c hc => by
    obtain ⟨k, hk⟩ := hcases c hc
    simp only [hk, CaseLbl.hits, beq_iff_eq, Option.some.injEq]
    omega
  have hdflt : cases.find? (·.1 = .dflt) = none := List.find?_eq_none.2 fun c hc => by
    obtain ⟨k, hk⟩ := hcases c hc
    simp [hk]
  have hstep : step env (.switch .getState (if opts.stateAbort then
      (.number (-1), gotoStart codeModel start) :: cases ++ [(.dflt, [.abort])]
      else cases ++ [(.dflt, gotoStart codeModel start)])) m = exec env (gotoStart codeModel start) m := by
    rw [step_switch, Expr.eval, hm]
    by_cases ha : opts.stateAbort = true
    · simp [ha, CaseLbl.hits]
    · have : CaseLbl.hits env (some (-1)) .dflt = false := rfl
      simp [ha, List.find?_append, hnone, hdflt, this]
  unfold stateGotoStmts
  rw [exec_cons, hstep]
  cases codeModel <;> simp only [gotoStart, exec_cons, step, exec_nil_eq, Outcome.bind_jump,
    Outcome.bind_next']
  split <;> rfl

/-- The code model and the target are the same for all blocks; the other options are those
of the whole program for a directive with no names, else those of its first block. Setting
the start label used is not kept: labels are an input here. -/
def genStateGoto (totalOpts : Opts) (pblocks blocks : List OutputBlock) (names : List String) :
    Except String StateGoto :=
  if totalOpts.target ≠ .code then .ok .empty
  else do
    let (cases, bstart) ← stateGotoBlocks pblocks blocks names
    let opts := if names.isEmpty then totalOpts else bstart.opts
    pure (stateGotoCode totalOpts.codeModel
      (stateGotoStmts totalOpts.codeModel opts cases (bstart.startLabel.getD default).index))

/-- `gen_state_goto_implicit`: a `use` block gets a switch of its own, and the first other
block that asks for one a switch over all blocks; with the flag `stateGoto` that says whether
that switch has been generated, before and after. -/
def genStateGotoImplicit (totalOpts : Opts) (pblocks blocks : List OutputBlock)
    (block : OutputBlock) (stateGoto : Bool) : Except String (Option StateGoto × Bool) :=
  if block.isUse then do
    let sg ← genStateGoto totalOpts pblocks blocks [block.name]
    pure (some sg, stateGoto)
  else if !stateGoto then do
    let sg ← genStateGoto totalOpts pblocks blocks []
    pure (some sg, true)
  else .ok (none, stateGoto)

theorem stateGotoBlocks_cases {pblocks blocks : List OutputBlock} {names : List String}
    {cases : List (CaseLbl × List Code)} {b : OutputBlock}
    (h : stateGotoBlocks pblocks blocks names = .ok (cases, b)) :
    ∃ bs : List OutputBlock, cases = bs.flatMap genStateGotoCases := by
  unfold stateGotoBlocks at h
  split at h
  · dsimp only at h
    split at h
    · cases h
      exact ⟨_, rfl⟩
    · cases h
  · cases hf : findBlocks blocks names "getstate:re2c" with
    | error e => simp [hf, bind, Except.bind] at h
    | ok bs =>
      simp only [hf, bind, Except.bind] at h
      split at h
      · cases h
      · cases h
        exact ⟨_, rfl⟩

theorem genStateGoto_code {totalOpts : Opts} {pblocks blocks : List OutputBlock}
    {names : List String} {sg : StateGoto} (h : genStateGoto totalOpts pblocks blocks names = .ok sg)
    (htarget : totalOpts.target = .code) :
    ∃ (opts : Opts) (fill : List (CaseLbl × List Code)) (start : Nat),
      (∀ c ∈ fill, ∃ k : Nat, c.1 = .number k) ∧
      sg = stateGotoCode totalOpts.codeModel (stateGotoStmts totalOpts.codeModel opts fill start) := by
  unfold genStateGoto at h
  rw [if_neg (by simp [htarget])] at h
  cases hs : stateGotoBlocks pblocks blocks names with
  | error e => simp [hs] at h
  | ok p =>
    obtain ⟨cases, b⟩ := p
    simp only [hs] at h
    cases h
    obtain ⟨bs, rfl⟩ := stateGotoBlocks_cases hs
    refine ⟨_, _, _, fun c hc => ?_, rfl⟩
    obtain ⟨b, -, hc⟩ := List.mem_flatMap.1 hc
    obtain ⟨⟨k, body⟩, -, rfl⟩ := List.mem_map.1 hc
    exact ⟨k, rfl⟩

/-- The function named by the block's start label that tail-calls the entry function of the
condition `YYGETCONDITION()` names. -/
def genCondFunc (opts : Opts) (conds : List StartCond) (start : Nat) : FnDef :=
  ⟨.state start, false, [.switch .getCond (conds.map (fun c =>
      (.string (opts.condEnumPrefix ++ c.name), [.tailcall (.cond c.name) false])) ++
    if opts.condAbort then [(.dflt, [.abort])] else [])]⟩

/-- With storable state the lexer function is the `YYGETSTATE` switch, if this block
generates it. -/
def genStartFunction (opts : Opts) (block : OutputBlock) (dfa : Adfa)
    (stateGoto : Option StateGoto) : List FnDef :=
  let start := (block.startLabel.getD default).index
  (if dfa.cond ≠ "" then [genCondFunc opts block.conds start] else []) ++
  if opts.storableState then
    match stateGoto with
    | some (.fndef f) => [f]
    | _ => []
  else
    [⟨.entry, false, [.tailcall (.state (if dfa.cond ≠ "" then start
      else (dfa.label (dfa.states.headD 0)).index)) false]⟩]

def genYystateDef (opts : Opts) : Code :=
  .assign [.yystate]
    (if opts.storableState then .getState else if opts.startConditions then .getCond else .num 0)

/-- The cases of `fill_goto` after those of the states, and the range [-1, 1) in place of the
label of the first case, that of state 0. -/
def genStorableStateCases (opts : Opts) (block : OutputBlock)
    (cases : List (CaseLbl × List Code)) : List (CaseLbl × List Code) :=
  if !opts.storableState || opts.codeModel = .gotoLabel then cases
  else match cases ++ genStateGotoCases block with
    | (_, body) :: rest => (.ranges [(-1, 1)], body) :: rest
    | [] => []

def wrapDfasInLoopSwitch (opts : Opts) (block : OutputBlock) (cases : List (CaseLbl × List Code)) :
    Code :=
  .loop [.switch (.var .yystate) (genStorableStateCases opts block cases ++
    if opts.stateAbort then [(.dflt, [.abort])] else [])]

/-- The code of a block: statements in goto/label and loop/switch mode, functions in rec/func
mode. -/
inductive BlockCode
  | stmts (cs : List Code)
  | functions (fns : List FnDef)

/-- The DFAs of a block in goto/label mode, each after the label of its condition. -/
def genDfasAsBlocks (opts : Opts) (isCondBlock : Bool) (dfas : List Adfa) : List Code :=
  dfas.flatMap fun dfa =>
    (if isCondBlock then
      (if opts.condDiv ≠ "" then [.text opts.condDiv] else []) ++ [.label (.cond dfa.cond)]
    else []) ++
    genDfaAsBlocksWithLabels opts dfa

/-- `gen_block_code`, given what `gen_state_goto_implicit` returns for the block. The bitmaps
are the environment's `yybm`; the text of `cond_div` is kept without its argument; the
warning about the order of conditions is not part of the code. -/
def genBlockCode (block : OutputBlock) (dfas : List Adfa) (stateGoto : Option StateGoto) :
    BlockCode :=
  let opts := block.opts
  -- all conditions are named, so the first DFA tells
  let isCondBlock := (dfas.headD default).cond != ""
  let decls : List Code :=
    (if !opts.storableState && opts.charEmit && opts.codeModel ≠ .recFunc then
      [.assign [.yych] (.num 0)] else []) ++
    (if !opts.storableState && block.usedYyaccept && opts.codeModel ≠ .recFunc then
      [.assign [.yyaccept] (.num 0)] else [])
  match opts.codeModel with
  | .gotoLabel =>
    .stmts (decls ++
      (if opts.computedGotos && isCondBlock then genCondTable block.conds else []) ++
      (match opts.storableState, stateGoto with
        | true, some (.block stmts) => [.block stmts]
        | _, _ => []) ++
      (if opts.labelStart ≠ "" then [.label (.user opts.labelStart)] else []) ++
      (match block.startLabel with
        | some l => [.label (.num l.index)]
        | none => []) ++
      (if isCondBlock then (genCondGoto opts block.conds false).1 else []) ++
      genDfasAsBlocks opts isCondBlock dfas)
  | .loopSwitch =>
    .stmts (decls ++ [genYystateDef opts,
      wrapDfasInLoopSwitch opts block (dfas.flatMap (genDfaAsSwitchCases opts))])
  | .recFunc =>
    .functions (dfas.flatMap (genDfaAsRecursiveFunctions opts) ++
      genStartFunction opts block (dfas.headD default) stateGoto)

/-! Control between labels, between passes of the `yystate` loop and between functions of the
generated program. -/

def afterLabel (l : Lbl) : List Code → Option (List Code)
  | [] => none
  | .label l' :: cs => if l' = l then some cs else afterLabel l cs
  | _ :: cs => afterLabel l cs

def GotoStep (env : Env) (code : List Code) : List Code × Mem → List Code × Mem → Prop
  | (cs, m), (cs', m') => ∃ l, exec env cs m = .jump m' (.goto l) ∧ afterLabel l code = some cs'

def CallStep (env : Env) (fns : List FnDef) : Fn × Mem → Fn × Mem → Prop
  | (f, m), (g, m') => ∃ d, fns.find? (·.name == f) = some d ∧ exec env d.body m = .jump m' (.call g)

def runGoto (env : Env) (code : List Code) : Nat → List Code → Mem → Option Outcome
  | 0, _, _ => none
  | fuel + 1, cs, m =>
    match exec env cs m with
    | .jump m' (.goto l) =>
      match afterLabel l code with
      | some cs' => runGoto env code fuel cs' m'
      | none => some (.jump m' (.goto l))
    | o => some o

def runFn (env : Env) (fns : List FnDef) : Nat → Fn → Mem → Option Outcome
  | 0, _, _ => none
  | fuel + 1, f, m =>
    match fns.find? (·.name == f) with
    | some d =>
      match exec env d.body m with
      | .jump m' (.call g) => runFn env fns fuel g m'
      | o => some o
    | none => some (.jump m (.call f))

def runLoop (env : Env) (body : List Code) : Nat → List Code → Mem → Option Outcome
  | 0, _, _ => none
  | fuel + 1, cs, m =>
    match exec env cs m with
    | .next m' => runLoop env body fuel body m'
    | .jump m' (.cont v) => runLoop env body fuel body (m'.setPos .yystate v)
    | o => some o

theorem run_of_reflTransGen {α β : Type} {step : α → α → Prop} (run : Nat → α → β)
    (hstep : ∀ a b, step a b → ∀ n, run (n + 1) a = run n b) {a b : α}
    (h : Relation.ReflTransGen step a b) : ∃ k, ∀ n, run (n + k) a = run n b := by
  induction h with
  | refl => exact ⟨0, fun _ => rfl⟩
  | tail _ hbc ih =>
    obtain ⟨k, hk⟩ := ih
    exact ⟨k + 1, fun n => by rw [show n + (k + 1) = n + 1 + k by omega, hk, hstep _ _ hbc]⟩

theorem runGoto_of_gotoStep {env : Env} {code : List Code} :
    ∀ a b, GotoStep env code a b → ∀ n, runGoto env code (n + 1) a.1 a.2 = runGoto env code n b.1 b.2
  | (_, _), (_, _), ⟨_, h, hl⟩, _ => by simp only [runGoto, h, hl]

theorem runFn_of_callStep {env : Env} {fns : List FnDef} :
    ∀ a b, CallStep env fns a b → ∀ n, runFn env fns (n + 1) a.1 a.2 = runFn env fns n b.1 b.2
  | (_, _), (_, _), ⟨_, hd, h⟩, _ => by simp only [runFn, hd, h]

theorem afterLabel_append {l : Lbl} {pre : List Code} (h : pre.all (·.labelOk (· != l)) = true)
    (rest : List Code) : afterLabel l (pre ++ rest) = afterLabel l rest := by
  induction pre with
  | nil => rfl
  | cons c cs ih =>
    simp only [List.all_cons, Bool.and_eq_true] at h
    rw [List.cons_append, ← ih h.2]
    cases c <;> try rfl
    rename_i l'
    simp only [Code.labelOk_label, bne_iff_ne, ne_eq] at h
    simp [afterLabel, h.1]

@[simp] theorem afterLabel_label_cons (l : Lbl) (cs : List Code) :
    afterLabel l (.label l :: cs) = some cs := by
  simp [afterLabel]

theorem gotoStep_of {env : Env} {code cs cs' : List Code} {m m' : Mem} {l : Lbl}
    (h : exec env cs m = .jump m' (.goto l)) (hl : afterLabel l code = some cs') :
    GotoStep env code (cs, m) (cs', m') :=
  ⟨l, h, hl⟩

theorem callStep_of {env : Env} {fns : List FnDef} {f g : Fn} {m m' : Mem} {d : FnDef}
    (hd : fns.find? (·.name == f) = some d) (h : exec env d.body m = .jump m' (.call g)) :
    CallStep env fns (f, m) (g, m') :=
  ⟨d, hd, h⟩

/-! A `goto` enters the code of a DFA only at the labels of its states and its fill labels. -/

section

variable (opts : Opts) (dfa : Adfa) (p : Lbl → Bool)

theorem genSettags_labelOk (t : Tcid) : (genSettags opts dfa t).all (·.labelOk p) = true := by
  rw [List.all_eq_true]
  intro c hc
  have := genSettags_tagStmt opts dfa t c hc
  cases c <;> simp_all [tagStmt, Code.labelOk]

theorem genTransition_labelOk (j : CodeJump) : (genTransition opts dfa j).all (·.labelOk p) = true := by
  unfold genTransition genContinueYyloop
  simp only [List.all_append, genSettags_labelOk, Bool.true_and]
  split <;> split <;> (try split) <;> rfl

theorem genFillFalllback_labelOk (s : StateId) (jump : Option CodeJump) :
    (genFillFalllback opts dfa s jump).all (·.labelOk p) = true := by
  unfold genFillFalllback genContinueYyloop
  split
  · rfl
  · simp only [List.all_append, genSettags_labelOk, Bool.true_and]
    split <;> rfl

theorem genIf_labelOk (c : Cond) (t : List Code) {f : List Code} (hf : f.all (·.labelOk p) = true) :
    (genIf opts c t f).all (·.labelOk p) = true := by
  unfold genIf
  split
  · rfl
  · simpa [Code.labelOk] using hf

theorem fillStmts_labelOk (s : StateId) (jump : Option CodeJump) :
    (fillStmts opts dfa s jump).all (·.labelOk p) = true := by
  have hfb := genFillFalllback_labelOk opts dfa p s jump
  dsimp only [fillStmts]
  split
  · simp only [List.all_append]
    refine Bool.and_eq_true_iff.2 ⟨by split <;> rfl, ?_⟩
    split
    · simp only [List.all_append]
      exact Bool.and_eq_true_iff.2 ⟨by split <;> rfl, genIf_labelOk opts p _ _ hfb⟩
    · rfl
  · split
    · exact hfb
    · rfl

theorem genFill_labelOk {tail : List Code} (ht : tail.all (·.labelOk p) = true) (s : StateId)
    (jump : Option CodeJump) : (genFill opts dfa tail s jump).all (·.labelOk p) = true := by
  dsimp only [genFill]
  split
  · exact genIf_labelOk opts p _ _ ht
  · simp [fillStmts_labelOk, ht]

theorem genGoto_labelOk (fromState : Option StateId) (j : CodeJump) :
    (genGoto opts dfa fromState j).all (·.labelOk p) = true := by
  unfold genGoto
  split
  · exact genFill_labelOk opts dfa p (genTransition_labelOk opts dfa p j) _ _
  · exact genTransition_labelOk opts dfa p j

theorem genGoifl_labelOk (s : StateId) (bs : List Branch) :
    (genGoifl opts dfa s bs).all (·.labelOk p) = true := by
  unfold genGoifl
  split
  · simp only [List.all_flatMap]
    refine List.all_eq_true.2 fun b _ => ?_
    split
    · rfl
    · exact genGoto_labelOk opts dfa p _ _
  · split
    · exact genGoto_labelOk opts dfa p _ _
    · rfl

theorem genGoif_labelOk (s : StateId) (g : CodeGoIf) :
    (genGoif opts dfa s g).all (·.labelOk p) = true := by
  cases g with
  | binary => rfl
  | linear bs => exact genGoifl_labelOk opts dfa p s bs

theorem genGoswif_labelOk (s : StateId) (g : CodeGoSwIf) :
    (genGoswif opts dfa s g).all (·.labelOk p) = true := by
  cases g with
  | switch => rfl
  | ifs g => exact genGoif_labelOk opts dfa p s g

theorem genGo_labelOk (go : CodeGo) (s : StateId) : (genGo opts dfa go s).all (·.labelOk p) = true := by
  have hpre : ((if opts.fillEof.isNone then genSettags opts dfa go.tags else []) ++
      (if go.skip then [Code.skip] else [])).all (·.labelOk p) = true := by
    simp only [List.all_append]
    refine Bool.and_eq_true_iff.2 ⟨?_, by split <;> rfl⟩
    split
    · exact genSettags_labelOk opts dfa p _
    · rfl
  unfold genGo
  cases go.kind <;> dsimp only
  case dot g => unfold genGodot; split <;> simp [Code.labelOk]
  case switchIf g => simp only [List.all_append, hpre, genGoswif_labelOk, Bool.and_self]
  case bitmap g =>
    unfold genGobm
    simp only [List.all_append, hpre, Bool.true_and]
    refine Bool.and_eq_true_iff.2 ⟨by split <;> rfl, ?_⟩
    split
    · exact genGoswif_labelOk opts dfa p s _
    · rfl
  case cpgoto g =>
    unfold genGocp
    simp only [List.all_append, hpre, Bool.true_and]
    split <;> rfl

theorem emitAcceptBinary_labelOk (acc : List AcceptTrans) (l r : Nat) :
    (emitAcceptBinary opts dfa acc l r).all (·.labelOk p) = true := by
  rw [emitAcceptBinary]
  split
  · rfl
  · exact genGoto_labelOk opts dfa p _ _

theorem emitAccept_labelOk (acc : List AcceptTrans) :
    (emitAccept opts dfa acc).all (·.labelOk p) = true := by
  dsimp only [emitAccept]
  split
  · rfl
  · simp only [List.all_append]
    refine Bool.and_eq_true_iff.2 ⟨by unfold genRestore; split <;> rfl, ?_⟩
    split
    · exact genGoto_labelOk opts dfa p _ _
    · split
      · rfl
      · split
        · exact emitAcceptBinary_labelOk opts dfa p acc _ _
        · rfl

/-- Whether the four lists of `gen_fintags` pass `labelOk p`. -/
def finOpsLabelOk (ops : FinOps) : Bool :=
  ops.varops.all (·.labelOk p) && ops.fixops.all (·.labelOk p) && ops.trailops.all (·.labelOk p) &&
    ops.fixpostops.all (·.labelOk p)

theorem genFintag_labelOk {ops : FinOps} (h : finOpsLabelOk p ops = true) (t : Nat) :
    finOpsLabelOk p (genFintag opts dfa ops t) = true := by
  have hs : ∀ k v h, (genShift k v h).all (·.labelOk p) = true := fun k v h => by
    unfold genShift; split <;> rfl
  have ha : ∀ vs, (genAssignManyToFirst vs).all (·.labelOk p) = true := fun vs => by
    unfold genAssignManyToFirst; split <;> rfl
  have hmk : ∀ a b c d n, finOpsLabelOk p ⟨a, b, c, d, n⟩ =
      (a.all (·.labelOk p) && b.all (·.labelOk p) && c.all (·.labelOk p) && d.all (·.labelOk p)) :=
    fun _ _ _ _ _ => rfl
  have hite : ∀ {c : Prop} [Decidable c] {a b : Bool}, a = true → b = true →
      (if c then a else b) = true := fun ha hb => by split <;> assumption
  have h' := h
  simp only [finOpsLabelOk, Bool.and_eq_true] at h'
  obtain ⟨⟨⟨h1, h2⟩, h3⟩, h4⟩ := h'
  -- push the check through every branch of `genFintag`, then close the leaves
  cases hfin : expandFintags (dfa.tags t) <;>
    simp only [genFintag, hfin, apply_ite (finOpsLabelOk p), hmk,
      apply_ite (fun l : List Code => l.all fun x => x.labelOk p), List.all_append,
      List.all_cons, List.all_nil, h, h1, h2, h3, h4, hs, ha, Bool.and_true, Bool.true_and,
      ite_self] <;> repeat' refine hite ?_ ?_
  all_goals rfl

theorem genFintags_labelOk (rule : Rule) : (genFintags opts dfa rule).all (·.labelOk p) = true := by
  have hfold : ∀ (ts : List Nat) (ops : FinOps), finOpsLabelOk p ops = true →
      finOpsLabelOk p (ts.foldl (genFintag opts dfa) ops) = true := by
    intro ts
    induction ts with
    | nil => exact fun _ h => h
    | cons t ts ih => exact fun ops h => ih _ (genFintag_labelOk opts dfa p h t)
  have h := hfold (List.range' rule.ltag (rule.htag - rule.ltag)) ⟨[], [], [], [], none⟩ rfl
  simp only [finOpsLabelOk, Bool.and_eq_true] at h
  unfold genFintags
  simp only [List.all_append, h, Bool.and_true, Bool.true_and]
  refine Bool.and_eq_true_iff.2 ⟨by split <;> rfl, ?_⟩
  split <;> simp_all [Code.labelOk]

theorem emitRule_labelOk (r : Nat) : (emitRule opts dfa r).all (·.labelOk p) = true := by
  dsimp only [emitRule]
  simp only [List.all_append, genFintags_labelOk, Bool.true_and]
  split
  · rfl
  · simp only [genRuleStateCond, genContinueYyloop, List.all_append]
    refine Bool.and_eq_true_iff.2 ⟨Bool.and_eq_true_iff.2 ⟨by split <;> rfl, by split <;> rfl⟩, ?_⟩
    split
    · simp only [List.all_append]; split <;> rfl
    · split <;> rfl

variable (hnum : ∀ n, p (.num n) = true) (hfill : ∀ n, p (.fill n) = true)
include hfill

theorem genFillAndLabel_labelOk (s : StateId) : (genFillAndLabel opts dfa s).all (·.labelOk p) = true := by
  unfold genFillAndLabel
  simp only [List.all_append]
  refine Bool.and_eq_true_iff.2 ⟨Bool.and_eq_true_iff.2 ⟨?_, ?_⟩, ?_⟩
  · split
    · exact @genFill_labelOk opts dfa p [] rfl _ _
    · rfl
  · split
    · exact genSettags_labelOk opts dfa p _
    · rfl
  · split
    · split <;> simp [Code.labelOk, hfill]
    · rfl

theorem stateCode_labels (s : StateId) (hs : p (.num (dfa.label s).index) = true)
    (hi : p (.num dfa.initialLabel.index) = true) : (stateCode opts dfa s).all (·.labelOk p) = true := by
  have hfl := genFillAndLabel_labelOk opts dfa p hfill s
  have hpk : (genPeek dfa s).all (·.labelOk p) = true := by unfold genPeek; split <;> rfl
  have hdb : ∀ l, (genDebug opts l).all (·.labelOk p) = true := fun l => by
    unfold genDebug; split <;> rfl
  unfold stateCode
  simp only [List.all_append, genGo_labelOk, Bool.and_true]
  refine Bool.and_eq_true_iff.2 ⟨?_, ?_⟩
  · dsimp only [emitState]
    split
    · rfl
    · simp only [List.all_append]
      refine Bool.and_eq_true_iff.2 ⟨by split <;> simp [Code.labelOk, hs], ?_⟩
      split
      · rfl
      · exact hdb _
  · dsimp only [emitAction]
    split
    · simp only [List.all_append, hfl, hpk, Bool.and_true]; split <;> rfl
    · simp only [List.all_append, hfl, hpk, hdb, Bool.and_true, List.all_cons, List.all_nil,
        Code.labelOk_label, hi]
      split_ifs <;> rfl
    · simp only [List.all_append, hfl, hpk, Bool.and_true]
      split_ifs <;> rfl
    · rfl
    · exact emitAccept_labelOk opts dfa p _
    · exact emitRule_labelOk opts dfa p _

include hnum

theorem stateCode_labelOk (s : StateId) : (stateCode opts dfa s).all (·.labelOk p) = true :=
  stateCode_labels opts dfa p hfill s (hnum _) (hnum _)

end

theorem genDfaAsBlocksWithLabels_labelOk (opts : Opts) (dfa : Adfa) (p : Lbl → Bool)
    (hnum : ∀ n, p (.num n) = true) (hfill : ∀ n, p (.fill n) = true) :
    (genDfaAsBlocksWithLabels opts dfa).all (·.labelOk p) = true := by
  unfold genDfaAsBlocksWithLabels
  simp only [List.all_append, List.all_flatMap]
  exact Bool.and_eq_true_iff.2 ⟨by split <;> rfl,
    List.all_eq_true.2 fun s _ => stateCode_labelOk opts dfa p hnum hfill s⟩

end Re2cCodegen.Block
