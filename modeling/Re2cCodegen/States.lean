import Re2cCodegen.Dispatch
import Re2cCodegen.Accept
import Re2cCodegen.FinalTags

/-! The code of one DFA state: its label and debug hook, the statements of its action, and
the dispatch on `yych` that leaves it. -/

namespace Re2cCodegen.States

open Re2cCodegen.Options Re2cCodegen.Dfa Re2cCodegen.Output Re2cCodegen.TagActions
  Re2cCodegen.Transitions Re2cCodegen.Dispatch Re2cCodegen.Accept Re2cCodegen.FinalTags

def genFillAndLabel (opts : Opts) (dfa : Adfa) (s : StateId) : List Code :=
  (if opts.fillEnable && !endstate dfa s && opts.fillEof.isNone && 0 < (dfa.state s).fill then
    genFill opts dfa [] s none else []) ++
  -- a rematch jumps back to the fill label: tags go before it so as not to apply them twice
  (if opts.fillEof.isSome then genSettags opts dfa (dfa.go s).tags else []) ++
  match (dfa.state s).fillLabel with
  | some k => if opts.codeModel = .gotoLabel then [.label (.fill k)] else []
  | none => []

def genPeek (dfa : Adfa) (s : StateId) : List Code := if omitPeek dfa s then [] else [.peek]

def genDebug (opts : Opts) (label : Label) : List Code := if opts.debug then [.debug label.index] else []

/-- `gen_cond_enum_elem`: the enumerator of condition `cond`. -/
def genCondEnumElem (opts : Opts) (cond : String) : Expr := .enumElem (opts.condEnumPrefix ++ cond)

/-- The `YYSETSTATE` and `YYSETCONDITION` that `emit_rule` puts before the action of a rule
whose next condition is `cond`. -/
def genRuleStateCond (opts : Opts) (dfa : Adfa) (cond : String) : List Code :=
  let nextCond := genCondEnumElem opts cond
  -- `yystate` is both the state and the condition in loop/switch mode
  (if opts.storableState then
    [.stateSet (if dfa.cond = "" ∨ opts.codeModel ≠ .loopSwitch then .num (-1) else nextCond)]
  else []) ++
  (if cond ≠ dfa.cond ∧ ¬(opts.codeModel = .loopSwitch ∧ opts.storableState) then
    [.condSet nextCond] else [])

theorem exec_genRuleStateCond (opts : Opts) (dfa : Adfa) (cond : String) (env : Env) (m : Mem) :
    exec env (genRuleStateCond opts dfa cond) m = .next { m with
      state := if opts.storableState then
          if dfa.cond = "" ∨ opts.codeModel ≠ .loopSwitch then some (-1)
          else some (env.enumVal (opts.condEnumPrefix ++ cond))
        else m.state,
      cond := if cond ≠ dfa.cond ∧ ¬(opts.codeModel = .loopSwitch ∧ opts.storableState) then
          some (env.enumVal (opts.condEnumPrefix ++ cond)) else m.cond } := by
  unfold genRuleStateCond genCondEnumElem
  split_ifs <;> simp_all [step, Expr.eval]

/-- The code of a RULE state. For the skeleton target the action that `emit_skeleton_action`
emits elsewhere is not kept; the line directives and the line splitting of an
indentation-sensitive action only change the text. -/
def emitRule (opts : Opts) (dfa : Adfa) (ruleIdx : Nat) : List Code :=
  let rule := dfa.rules ruleIdx
  let semact := rule.semact
  genFintags opts dfa rule ++
  if opts.target = .skeleton then [] else
  let cond := semact.cond.getD dfa.cond
  genRuleStateCond opts dfa cond ++
  if !semact.autogen then
    (if dfa.setup ≠ "" then [.text dfa.setup] else []) ++ [.text semact.text]
  else match opts.codeModel with
    | .gotoLabel => [.goto (.cond cond)]
    | .loopSwitch => genContinueYyloop (genCondEnumElem opts cond)
    | .recFunc => [.tailcall (.cond cond) false]

def emitAction (opts : Opts) (dfa : Adfa) (s : StateId) : List Code :=
  match dfa.action s with
  | .match =>
    (if !opts.eagerSkip then [.skip] else []) ++ genFillAndLabel opts dfa s ++ genPeek dfa s
  | .initial save =>
    let ul1 := (dfa.label s).used
    (if ul1 && 1 < dfa.accepts && save.isSome then [.assign [.yyaccept] (.num (save.getD 0))]
      else []) ++
    (if ul1 && !opts.eagerSkip then [.skip] else []) ++
    [.label (.num dfa.initialLabel.index)] ++ genFillAndLabel opts dfa s ++
    (if save.isSome then [.backup] else []) ++ genPeek dfa s ++ genDebug opts dfa.initialLabel
  | .save save =>
    (if 1 < dfa.accepts then [.assign [.yyaccept] (.num save)] else []) ++
    (if !opts.eagerSkip then [.skip] else []) ++ [.backup] ++ genFillAndLabel opts dfa s ++
    genPeek dfa s
  | .move => []
  | .accept accepts => emitAccept opts dfa accepts
  | .rule rule => emitRule opts dfa rule

/-- An unused label is not emitted, nor its debug hook, which has no state number. -/
def emitState (opts : Opts) (dfa : Adfa) (s : StateId) : List Code :=
  let l := dfa.label s
  if !l.used then [] else
  (if opts.codeModel = .gotoLabel then [.label (.num l.index)] else []) ++
  match dfa.action s with
  | .initial _ => []
  | _ => genDebug opts l

def stateCode (opts : Opts) (dfa : Adfa) (s : StateId) : List Code :=
  emitState opts dfa s ++ emitAction opts dfa s ++ genGo opts dfa (dfa.go s) s

end Re2cCodegen.States
