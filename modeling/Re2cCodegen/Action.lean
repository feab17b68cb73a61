import Re2cCodegen.Program

/-! The action of the rule the lexer matched. Under the default API the code of a rule state sets
the final tags and `yynmatch`, records the next state and condition, and runs the setup code and
the rule's action; in goto/label mode the code of a DFA, started in the code of a state, runs the
lexer to a rule state and then that action. -/

namespace Re2cCodegen.Action

open Re2cCodegen.Options Re2cCodegen.Dfa Re2cCodegen.Output Re2cCodegen.FinalTags
  Re2cCodegen.Dispatch Re2cCodegen.States Re2cCodegen.Layout Re2cCodegen.Block Re2cCodegen.Program

/-- What the statements of rule state `t`, of rule `r`, do before its dispatch, run from `m`
into `m'`: `yynmatch` holds the number of captures if there are any; every slot of a tag of the
rule that is not fictive holds the tag's value in `m`; no other variable but the cursor changes;
the state and the condition are those `emit_rule` sets for the rule's next condition; and the
trace ends in the debug hook of the state, the setup code of the DFA and the rule's action. -/
structure RuleRan (opts : Opts) (dfa : Adfa) (env : Env) (t : StateId) (r : Nat) (m m' : Mem) :
    Prop where
  nmatch : m'.get (.fin .nmatch) =
    if (dfa.rules r).ncap > 0 then some ((dfa.rules r).ncap : Int) else m.get (.fin .nmatch)
  slots : ∀ u, (dfa.rules r).ltag ≤ u → u < (dfa.rules r).htag → (dfa.tags u).fictive = false →
    ∀ v ∈ expandFintags (dfa.tags u), m'.get v = finPos dfa m u
  frame : ∀ w, w ≠ .cursor → w ≠ .fin .nmatch →
    (∀ u, (dfa.rules r).ltag ≤ u → u < (dfa.rules r).htag → (dfa.tags u).fictive = false →
      w ∉ expandFintags (dfa.tags u)) → m'.vars w = m.vars w
  tables : m'.tables = m.tables
  state : m'.state = if opts.storableState then
      if dfa.cond = "" ∨ opts.codeModel ≠ .loopSwitch then some (-1)
      else some (env.enumVal (opts.condEnumPrefix ++ (dfa.rules r).semact.cond.getD dfa.cond))
    else m.state
  cond : m'.cond = if (dfa.rules r).semact.cond.getD dfa.cond ≠ dfa.cond ∧
      ¬(opts.codeModel = .loopSwitch ∧ opts.storableState) then
      some (env.enumVal (opts.condEnumPrefix ++ (dfa.rules r).semact.cond.getD dfa.cond))
    else m.cond
  trace : m'.trace = m.trace ++
    (if (dfa.label t).used && opts.debug then [.debug (dfa.label t).index] else []) ++
    (if dfa.setup ≠ "" then [.text dfa.setup] else []) ++ [.text (dfa.rules r).semact.text]

section

variable {opts : Opts} {env : Env} {dfa : Adfa}

theorem exec_actionText (rule : Rule) (m : Mem) :
    exec env ((if dfa.setup ≠ "" then [Code.text dfa.setup] else []) ++ [.text rule.semact.text]) m =
      .next { m with trace := m.trace ++
        ((if dfa.setup ≠ "" then [.text dfa.setup] else []) ++ [.text rule.semact.text]) } := by
  split <;> simp [exec_cons, step, Mem.emit]

theorem exec_ruleState (hapi : opts.api = .default) (htarget : opts.target ≠ .skeleton)
    {t : StateId} {r : Nat} (ha : dfa.action t = .rule r) (hauto : (dfa.rules r).semact.autogen = false)
    (hslots : ∀ u u', (dfa.rules r).ltag ≤ u → u < (dfa.rules r).htag → (dfa.rules r).ltag ≤ u' →
      u' < (dfa.rules r).htag → u ≠ u' →
      ∀ v ∈ expandFintags (dfa.tags u), v ∉ expandFintags (dfa.tags u')) (m : Mem) :
    ∃ m', exec env (emitState opts dfa t ++ emitAction opts dfa t) m = .next m' ∧
      RuleRan opts dfa env t r m m' := by
  set m0 := if (dfa.label t).used && opts.debug then m.emit (.debug (dfa.label t).index) else m
    with hm0
  have h0 : m0.vars = m.vars ∧ m0.tables = m.tables ∧ m0.state = m.state ∧ m0.cond = m.cond ∧
      m0.trace = m.trace ++
        (if (dfa.label t).used && opts.debug then [.debug (dfa.label t).index] else []) := by
    rw [hm0]
    split <;> simp [Mem.emit]
  obtain ⟨m1, e1, ⟨vs, rfl⟩, n1, s1, f1⟩ :=
    @genFintags_default_spec opts env dfa hapi (dfa.rules r) hslots m0
  apply Exists.intro
  constructor
  · rw [exec_append, exec_emitState_entered (fun _ h => by cases ha.symm.trans h), Outcome.bind_next,
      show emitAction opts dfa t = emitRule opts dfa r by simp only [emitAction, ha], emitRule]
    dsimp only
    rw [if_neg htarget, hauto, Bool.not_false, if_pos rfl, exec_append, e1, Outcome.bind_next,
      exec_append, exec_genRuleStateCond, Outcome.bind_next, exec_actionText]
  refine ⟨?_, fun u h1 h2 hfi v hv => ?_, fun w hc hn hw => ?_, h0.2.1, ?_, ?_, ?_⟩
  · exact n1.trans (congrArg (ite _ _) (congrArg Val.pos (congrFun h0.1 _)))
  · rw [← finPos_congr fun w _ => congrFun h0.1 w]
    exact s1 u h1 h2 hfi v hv
  · exact (f1 w hc hn hw).trans (congrFun h0.1 w)
  · exact congrArg (ite _ _) h0.2.2.1
  · exact congrArg (ite _ _) h0.2.2.2.1
  · show m0.trace ++ _ = _
    rw [h0.2.2.2.2, List.append_assoc, List.append_assoc, List.append_assoc]

end

section Goto

variable {opts : Opts} {env : Env} {dfa : Adfa}

theorem runGoto_lexRun_action (hr : LexRun opts env dfa) (hapi : opts.api = .default)
    (htarget : opts.target ≠ .skeleton) (rest : List Code) (n : Nat) {s t : StateId} {r : Nat}
    {m m' : Mem} (hs : s ∈ dfa.states) (h : lexRun opts dfa env n s m = some (t, m'))
    (ha : dfa.action t = .rule r) (hauto : (dfa.rules r).semact.autogen = false)
    (hslots : ∀ u u', (dfa.rules r).ltag ≤ u → u < (dfa.rules r).htag → (dfa.rules r).ltag ≤ u' →
      u' < (dfa.rules r).htag → u ≠ u' →
      ∀ v ∈ expandFintags (dfa.tags u), v ∉ expandFintags (dfa.tags u')) :
    ∃ k m'' tail, codeFrom opts dfa rest t = emitState opts dfa t ++ emitAction opts dfa t ++ tail ∧
      RuleRan opts dfa env t r m' m'' ∧ ∀ fuel,
        runGoto env (genDfaAsBlocksWithLabels opts dfa ++ rest) (fuel + k) (codeFrom opts dfa rest s) m =
          runGoto env (genDfaAsBlocksWithLabels opts dfa ++ rest) fuel tail m'' := by
  obtain ⟨ht, k, hk⟩ := runGoto_lexRun_states hr rest n hs h
  obtain ⟨after, hafter⟩ := dropWhile_ne_of_mem ht
  obtain ⟨m'', e, hran⟩ := @exec_ruleState opts env dfa hapi htarget _ _ ha hauto hslots m'
  have hcode : codeFrom opts dfa rest t = emitState opts dfa t ++ emitAction opts dfa t ++
      (genGo opts dfa (dfa.go t) t ++ (after.flatMap (stateCode opts dfa) ++ rest)) := by
    rw [codeFrom, hafter, List.flatMap_cons, stateCode]
    simp only [List.append_assoc]
  refine ⟨k, m'', _, hcode, hran, fun fuel => (hk fuel).trans (runGoto_of_exec_eq ?_ fuel)⟩
  rw [hcode, exec_append, e, Outcome.bind_next]

end Goto

theorem runGoto_lexRun_action_backtrack :
    ∃ m', lexRun default backtrackDfa default 3 0 startMem = some (4, m') ∧
      ∃ k m'' tail, codeFrom default backtrackDfa [] 4 =
          emitState default backtrackDfa 4 ++ emitAction default backtrackDfa 4 ++ tail ∧
        RuleRan default backtrackDfa default 4 1 m' m'' ∧ ∀ fuel,
          runGoto default (genDfaAsBlocksWithLabels default backtrackDfa ++ []) (fuel + k)
              (codeFrom default backtrackDfa [] 0) startMem =
            runGoto default (genDfaAsBlocksWithLabels default backtrackDfa ++ []) fuel tail m'' :=
  let ⟨_, h⟩ := backtrack_lexRun
  ⟨_, h, runGoto_lexRun_action backtrackDfa_lexRun rfl (by decide) [] 3 (by decide) h rfl rfl
    fun u u' _ hu _ hu' hne => by
      obtain rfl | rfl : u = 0 ∨ u = 1 := by change u < 2 at hu; omega
      all_goals obtain rfl | rfl : u' = 0 ∨ u' = 1 := by change u' < 2 at hu'; omega
      all_goals first | exact absurd rfl hne | decide⟩

end Re2cCodegen.Action
