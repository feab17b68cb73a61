import Re2cCodegen.Program

/-! The code of a DFA run in the code models that group states: the cases of the `yystate` loop
in loop/switch mode and the functions of rec/func mode. A state whose label is unused sits in the
case or the function of the state before it and is entered by falling through; the others are
entered by `yystate = n; continue` or by a tail call. With enough input and no end-of-input rule
the program follows every run of the DFA in both models. -/

namespace Re2cCodegen.GroupedRuns

open Re2cCodegen.Options Re2cCodegen.Dfa Re2cCodegen.Output Re2cCodegen.TagActions
  Re2cCodegen.Transitions Re2cCodegen.Dispatch Re2cCodegen.States Re2cCodegen.Layout
  Re2cCodegen.Block Re2cCodegen.Program Re2cCodegen.Conditions

/-! The groups of a state list without repetitions. -/

section Groups

variable (dfa : Adfa)

theorem mem_groups_eq {l : List StateId} (hnd : l.Nodup) : ∀ g ∈ groups dfa l,
    ∃ s, g = s :: ((l.dropWhile (· ≠ s)).drop 1).takeWhile (unused dfa) := by
  induction l using groups.induct dfa with
  | case1 => simp [groups]
  | case2 s rest ih =>
    rw [groups]
    intro g hg
    rcases List.mem_cons.1 hg with rfl | hg
    · exact ⟨s, by simp⟩
    have hnd' := List.nodup_cons.1 hnd
    obtain ⟨s', rfl⟩ := ih (hnd'.2.sublist (List.dropWhile_suffix _).sublist) g hg
    have hs' : s' ∈ rest.dropWhile (unused dfa) := by
      rw [← flatten_groups dfa (rest.dropWhile (unused dfa))]
      exact List.mem_flatten.2 ⟨_, hg, List.mem_cons_self _ _⟩
    have hsplit := List.takeWhile_append_dropWhile (unused dfa) rest
    have hne : s ≠ s' := fun h => hnd'.1 (h ▸ (List.dropWhile_suffix _).subset hs')
    have hdrop : rest.dropWhile (· ≠ s') = (rest.dropWhile (unused dfa)).dropWhile (· ≠ s') := by
      conv_lhs => rw [← hsplit]
      refine List.dropWhile_append_of_pos fun a ha => ?_
      have hnd'' : (rest.takeWhile (unused dfa) ++ rest.dropWhile (unused dfa)).Nodup := by
        rw [hsplit]; exact hnd'.2
      simpa using fun has : a = s' => List.disjoint_of_nodup_append hnd'' ha (has ▸ hs')
    exact ⟨s', by rw [List.dropWhile_cons_of_pos (by simpa using hne), hdrop]⟩

theorem group_mem_groups (hnd : dfa.states.Nodup) {s : StateId} (hs : s ∈ dfa.states)
    (hu : (dfa.label s).used = true) :
    s :: ((dfa.states.dropWhile (· ≠ s)).drop 1).takeWhile (unused dfa) ∈ groups dfa dfa.states := by
  obtain ⟨g, hg, hh⟩ := exists_group_head dfa dfa.states hs (.inr hu)
  obtain ⟨s', rfl⟩ := mem_groups_eq dfa hnd g hg
  obtain rfl : s' = s := Option.some.inj hh
  exact hg

end Groups

def groupFrom (opts : Opts) (dfa : Adfa) (s : StateId) : List Code :=
  (s :: ((dfa.states.dropWhile (· ≠ s)).drop 1).takeWhile (unused dfa)).flatMap (stateCode opts dfa)

theorem groupFrom_of_next (opts : Opts) {dfa : Adfa} (hnd : dfa.states.Nodup) {s t : StateId}
    (hs : s ∈ dfa.states) (hn : nextState dfa.states s = some t) (hu : (dfa.label t).used = false) :
    groupFrom opts dfa s = stateCode opts dfa s ++ groupFrom opts dfa t := by
  obtain ⟨r, hr⟩ := dropWhile_ne_of_mem hs
  rw [nextState, hr] at hn
  obtain ⟨r', rfl⟩ : ∃ r', r = t :: r' := by
    cases r with
    | nil => cases hn
    | cons t' r' => cases hn; exact ⟨r', rfl⟩
  rw [groupFrom, groupFrom, hr, dropWhile_ne_next hnd hr]
  simp [unused, hu]

/-! The code of a state neither reads nor writes `yystate`: only the loop reads it. -/

section Frame

variable {w : Var}

theorem get_set_ne {v : Var} (h : v ≠ w) (m : Mem) (x : Val) : (m.set w x).get v = m.get v := by
  simp [h]

theorem shift_set {v : Var} (h : v ≠ w) (m : Mem) (x : Val) (k : Int) :
    (m.set w x).shift v k = (m.shift v k).set w x := by
  simp only [Mem.shift, get_set_ne h, Mem.vars_set, Function.update_noteq h]
  exact Mem.set_comm _ _ _ (Ne.symm h)

theorem push_set {v : Var} (h : v ≠ w) (m : Mem) (x : Val) (p : Option Int) :
    (m.set w x).push v p = (m.push v p).set w x := by
  simp only [Mem.push, Mem.vars_set, Function.update_noteq h]
  exact Mem.set_comm _ _ _ (Ne.symm h)

theorem setPos_set {v : Var} (h : v ≠ w) (m : Mem) (x : Val) (p : Option Int) :
    (m.set w x).setPos v p = (m.setPos v p).set w x :=
  Mem.set_comm _ _ _ (Ne.symm h)

theorem assign_set {ls : List Var} (h : w ∉ ls) (m : Mem) (x y : Val) :
    (m.set w x).assign ls y = (m.assign ls y).set w x := by
  induction ls generalizing m with
  | nil => rfl
  | cons l ls ih =>
    rw [List.mem_cons, not_or] at h
    show ((m.set w x).set l y).assign ls y = ((m.set l y).assign ls y).set w x
    rw [Mem.set_comm _ _ _ h.1, ih h.2]

theorem emit_set (m : Mem) (x : Val) (e : Event) : (m.set w x).emit e = (m.emit e).set w x := rfl

theorem set_set (m : Mem) (x y : Val) : (m.set w x).set w y = m.set w y := by
  simp [Mem.set]

theorem ite_set {p : Prop} [Decidable p] (a b : Mem) (x : Val) :
    (if p then a.set w x else b.set w x) = (if p then a else b).set w x := by
  split <;> rfl

def readsVar (w : Var) : Expr → Bool
  | .var v => v == w
  | .minus e _ => readsVar w e
  | _ => false

theorem eval_set {e : Expr} (h : readsVar w e = false) (env : Env) (m : Mem) (x : Val) :
    e.eval env (m.set w x) = e.eval env m := by
  induction e with
  | var v => exact get_set_ne (by simpa [readsVar] using h) m x
  | minus e k ih => simp only [Expr.eval, ih h]
  | null | num | getState | getCond | enumElem => rfl

theorem val_set {e : Expr} (h : readsVar w e = false) (env : Env) (m : Mem) (x : Val) :
    e.val env (m.set w x) = e.val env m := by
  have he := congrArg (fun p => (⟨p, []⟩ : Val)) (eval_set h env m x)
  cases e
  case var v =>
    have hv : v ≠ w := by simpa [readsVar] using h
    cases v
    case tag => exact Function.update_noteq hv _ _
    all_goals exact he
  all_goals exact he

variable (env : Env)

theorem settagCode_assign {ls : List Var} {e : Expr} (h : settagCode (.assign ls e) = true)
    (hw : isTagVar w = false) (hcur : w ≠ .cursor) : w ∉ ls ∧ readsVar w e = false := by
  have hls : ls.all isTagVar = true → w ∉ ls := fun hall hm => by
    rw [List.all_eq_true.1 hall w hm] at hw; cases hw
  cases e
  case null => exact ⟨hls h, rfl⟩
  case var v =>
    change (ls.all isTagVar && (isTagVar v || v == .cursor)) = true at h
    rw [Bool.and_eq_true] at h
    refine ⟨hls h.1, ?_⟩
    show (v == w) = false
    rw [beq_eq_false_iff_ne]
    rintro rfl
    rcases Bool.or_eq_true_iff.1 h.2 with h' | h'
    · rw [hw] at h'; cases h'
    · exact hcur (beq_iff_eq.1 h')
  all_goals cases h

theorem step_settagCode_set {c : Code} (hc : settagCode c = true) (hw : isTagVar w = false)
    (hcur : w ≠ .cursor) (m : Mem) (x : Val) :
    ∃ m', step env c m = .next m' ∧ step env c (m.set w x) = .next (m'.set w x) := by
  cases c <;> try cases hc
  case assign ls e =>
    obtain ⟨hls, he⟩ := settagCode_assign hc hw hcur
    exact ⟨_, rfl, by
      show Outcome.next ((m.set w x).assign ls (e.val env (m.set w x))) = _
      rw [val_set he, assign_set hls]⟩
  case setTag neg hist v =>
    have hv : v ≠ w := by
      rintro rfl
      change isTagVar v = true at hc
      rw [hw] at hc
      cases hc
    refine ⟨_, rfl, ?_⟩
    cases hist
    · show Outcome.next ((m.set w x).setPos v _) = _
      rw [get_set_ne (Ne.symm hcur), setPos_set hv]
      rfl
    · show Outcome.next ((m.set w x).push v _) = _
      rw [get_set_ne (Ne.symm hcur), push_set hv]
      rfl
  case backupCtx =>
    refine ⟨_, rfl, ?_⟩
    show Outcome.next ((m.set w x).setPos .ctxmarker _) = _
    rw [get_set_ne (Ne.symm hcur), setPos_set (fun h => by rw [← h] at hw; cases hw)]

theorem exec_settagCode_set {cs : List Code} (hc : ∀ c ∈ cs, settagCode c = true)
    (hw : isTagVar w = false) (hcur : w ≠ .cursor) (m : Mem) (x : Val) :
    ∃ m', exec env cs m = .next m' ∧ exec env cs (m.set w x) = .next (m'.set w x) := by
  induction cs generalizing m with
  | nil => exact ⟨m, rfl, rfl⟩
  | cons c cs ih =>
    obtain ⟨m1, h1, h1'⟩ := step_settagCode_set env (hc c (.head _)) hw hcur m x
    obtain ⟨m2, h2, h2'⟩ := ih (fun c h => hc c (.tail _ h)) m1
    exact ⟨m2, by rw [exec_cons, h1, Outcome.bind_next, h2],
      by rw [exec_cons, h1', Outcome.bind_next, h2']⟩

theorem runTags_set (opts : Opts) (dfa : Adfa) (tcid : Tcid) (hw : isTagVar w = false)
    (hcur : w ≠ .cursor) (m : Mem) (x : Val) :
    runTags opts dfa env tcid (m.set w x) = (runTags opts dfa env tcid m).set w x := by
  obtain ⟨m', h, h'⟩ := exec_settagCode_set env (genSettags_settagCode opts dfa tcid) hw hcur m x
  rw [runTags, runTags, h, h']
  rfl

end Frame

section Yystate

variable (opts : Opts) (dfa : Adfa) (env : Env) (x : Val)

theorem runTags_yystate (tcid : Tcid) (m : Mem) :
    runTags opts dfa env tcid (m.set .yystate x) = (runTags opts dfa env tcid m).set .yystate x :=
  runTags_set (w := .yystate) env opts dfa tcid rfl (by decide) m x

theorem actionMem_yystate (s : StateId) (m : Mem) :
    actionMem opts dfa env s (m.set .yystate x) = (actionMem opts dfa env s m).set .yystate x := by
  unfold actionMem
  cases dfa.action s <;>
    simp only [shift_set, setPos_set, assign_set, emit_set, get_set_ne, ite_set, ne_eq, reduceCtorEq,
      not_false_eq_true, List.mem_singleton]

theorem preMem_yystate (go : CodeGo) (m : Mem) :
    preMem opts dfa env go (m.set .yystate x) = (preMem opts dfa env go m).set .yystate x := by
  unfold preMem skipIf
  split_ifs <;> simp only [runTags_yystate, shift_set, ne_eq, reduceCtorEq, not_false_eq_true]

theorem goTables_yystate (k : GoKind) (c : Option Int) (m : Mem) :
    goTables dfa k c (m.set .yystate x) = (goTables dfa k c m).set .yystate x := by
  cases k
  case cpgoto go => simp only [goTables]; split <;> rfl
  all_goals rfl

theorem jumpMem_yystate (j : CodeJump) (m : Mem) :
    jumpMem opts dfa env j (m.set .yystate x) = (jumpMem opts dfa env j m).set .yystate x := by
  unfold jumpMem
  split <;> simp only [runTags_yystate, shift_set, ne_eq, reduceCtorEq, not_false_eq_true]

theorem dfaStep_yystate (s : StateId) (m : Mem) :
    dfaStep opts dfa env s (m.set .yystate x) =
      (dfaStep opts dfa env s m).map fun p => (p.1, p.2.set .yystate x) := by
  unfold dfaStep
  split
  · simp only [actionMem_yystate, get_set_ne (show Var.yych ≠ .yystate by decide), preMem_yystate,
      goTables_yystate, jumpMem_yystate, Option.map_map]
    rfl
  · rfl

end Yystate

/-! One step of the DFA in the code of a state. -/

structure GroupRun (opts : Opts) (env : Env) (dfa : Adfa) (cm : CodeModel) : Prop where
  model : opts.codeModel = cm
  enough : Enough opts env
  labels : (dfa.states.map fun s => (dfa.label s).index).Nodup
  dispatch : ∀ s ∈ dfa.states, consumes (dfa.action s) → DispatchWF opts dfa (dfa.go s).kind
  targets : ∀ s ∈ dfa.states, consumes (dfa.action s) → ∀ j ∈ dispatchTargets (dfa.go s).kind,
    j.dest ∈ dfa.states ∧ (emitsTransfer dfa j = false →
      nextState dfa.states s = some j.dest ∧ (dfa.label j.dest).used = false)

section Runs

variable {opts : Opts} {env : Env} {dfa : Adfa} {cm : CodeModel}

theorem exec_stateCode_of_dfaStep (hr : GroupRun opts env dfa cm) {s t : StateId} {m m' : Mem}
    (hs : s ∈ dfa.states) (h : dfaStep opts dfa env s m = some (t, m')) :
    t ∈ dfa.states ∧
      ((dfa.label t).used = true ∧ exec env (stateCode opts dfa s) m = .jump m' (stateExit cm dfa t) ∨
        exec env (stateCode opts dfa s) m = .next m' ∧ nextState dfa.states s = some t ∧
          (dfa.label t).used = false) := by
  unfold dfaStep at h
  split at h
  case isFalse => cases h
  rename_i hc
  obtain ⟨j, hj, heq⟩ := Option.map_eq_some'.1 h
  cases heq
  obtain ⟨hdest, hnext⟩ := hr.targets s hs hc j (selectGo_mem _ _ hj)
  refine ⟨hdest, ?_⟩
  rw [exec_stateCode dfa s hc hr.enough (hr.dispatch s hs hc) m hj, exec_genTransition, hr.model]
  cases he : emitsTransfer dfa j
  · exact .inr ⟨rfl, hnext he⟩
  · simp only [emitsTransfer, Bool.and_eq_true] at he
    exact .inl ⟨he.2, by simp [emitsTransfer, he]⟩

/-! Loop/switch mode: the states of a group are a case of the switch on `yystate`. -/

def loopBody (opts : Opts) (dfa : Adfa) (pre rest : List (CaseLbl × List Code)) : List Code :=
  [.switch (.var .yystate) (pre ++ genDfaAsSwitchCases opts dfa ++ rest)]

theorem wrapDfasInLoopSwitch_eq (opts : Opts) (block : OutputBlock) (before after : List Adfa)
    (dfa : Adfa) (hs : opts.storableState = false) :
    wrapDfasInLoopSwitch opts block ((before ++ dfa :: after).flatMap (genDfaAsSwitchCases opts)) =
      .loop (loopBody opts dfa (before.flatMap (genDfaAsSwitchCases opts))
        (after.flatMap (genDfaAsSwitchCases opts) ++
          if opts.stateAbort then [(.dflt, [.abort])] else [])) := by
  simp [wrapDfasInLoopSwitch, genStorableStateCases, hs, loopBody]

theorem wrapDfasInLoopSwitch_storable (opts : Opts) (block : OutputBlock) (before after : List Adfa)
    (dfa : Adfa) {c : CaseLbl × List Code} {pre : List (CaseLbl × List Code)}
    (hs : opts.storableState = true) (hm : opts.codeModel = .loopSwitch)
    (hc : before.flatMap (genDfaAsSwitchCases opts) = c :: pre) :
    wrapDfasInLoopSwitch opts block ((before ++ dfa :: after).flatMap (genDfaAsSwitchCases opts)) =
      .loop (loopBody opts dfa ((.ranges [(-1, 1)], c.2) :: pre)
        (after.flatMap (genDfaAsSwitchCases opts) ++ genStateGotoCases block ++
          if opts.stateAbort then [(.dflt, [.abort])] else [])) := by
  simp [wrapDfasInLoopSwitch, genStorableStateCases, hs, hm, loopBody, hc]

theorem exec_loopBody (hr : GroupRun opts env dfa cm) {pre : List (CaseLbl × List Code)}
    (hpre : ∀ c ∈ pre, ∀ s ∈ dfa.states, c.1.hits env (some ((dfa.label s).index : Int)) = false)
    (rest : List (CaseLbl × List Code)) {s : StateId} (hs : s ∈ dfa.states)
    (hu : (dfa.label s).used = true) (m : Mem) (hy : m.get .yystate = some ((dfa.label s).index : Int)) :
    exec env (loopBody opts dfa pre rest) m = exec env (groupFrom opts dfa s) m := by
  have hmem : (.number (dfa.label s).index, groupFrom opts dfa s) ∈ genDfaAsSwitchCases opts dfa := by
    rw [genDfaAsSwitchCases_eq]
    exact List.mem_map.2 ⟨_, group_mem_groups dfa (hr.labels.of_map _) hs hu, rfl⟩
  have hn : ((genDfaAsSwitchCases opts dfa).map (·.1)).Nodup := by
    simpa using nodup_switchCaseLabels opts [dfa] (by simpa using hr.labels)
  have hfind := find?_hits_number env hn (genDfaAsSwitchCases_number opts dfa) hmem rfl
  have hmiss : pre.find? (·.1.hits env (some ((dfa.label s).index : Int))) = none :=
    List.find?_eq_none.2 fun c hc => by simp [hpre c hc s hs]
  rw [loopBody, exec_cons, step_switch, exec_nil_eq, Outcome.bind_next',
    show (Expr.var .yystate).eval env m = _ from hy, List.find?_append, List.find?_append, hmiss,
    hfind, Option.none_or, Option.or_some]

theorem runLoop_of_exec_eq {body cs cs' : List Code} {m m' : Mem}
    (h : exec env cs m = exec env cs' m') (n : Nat) :
    runLoop env body n cs m = runLoop env body n cs' m' := by
  cases n <;> simp only [runLoop, h]

theorem runLoop_dfaStep (hr : GroupRun opts env dfa .loopSwitch) {pre : List (CaseLbl × List Code)}
    (hpre : ∀ c ∈ pre, ∀ s ∈ dfa.states, c.1.hits env (some ((dfa.label s).index : Int)) = false)
    (rest : List (CaseLbl × List Code)) {s t : StateId} {m m' : Mem} (hs : s ∈ dfa.states) (h : dfaStep opts dfa env s m = some (t, m'))
    (x : Val) :
    t ∈ dfa.states ∧ ∃ k x', ((dfa.label t).used = true → x' = ⟨some (dfa.label t).index, []⟩) ∧
      ∀ n, runLoop env (loopBody opts dfa pre rest) (n + k) (groupFrom opts dfa s) (m.set .yystate x) =
        runLoop env (loopBody opts dfa pre rest) n (groupFrom opts dfa t) (m'.set .yystate x') := by
  have h' : dfaStep opts dfa env s (m.set .yystate x) = some (t, m'.set .yystate x) := by
    rw [dfaStep_yystate, h]
    rfl
  obtain ⟨ht, hcase⟩ := exec_stateCode_of_dfaStep hr hs h'
  refine ⟨ht, ?_⟩
  rcases hcase with ⟨hu, hexec⟩ | ⟨hexec, hn, hu⟩
  · -- `yystate = n; continue` into the case of `t`
    refine ⟨1, ⟨some (dfa.label t).index, []⟩, fun _ => rfl, fun n => ?_⟩
    have hgroup : exec env (groupFrom opts dfa s) (m.set .yystate x) =
        .jump (m'.set .yystate x) (.cont (some (dfa.label t).index)) := by
      rw [groupFrom, List.flatMap_cons, exec_append, hexec, Outcome.bind_jump]
      rfl
    rw [runLoop, hgroup]
    dsimp only
    rw [Mem.setPos, set_set]
    exact runLoop_of_exec_eq (exec_loopBody hr hpre rest ht hu _ (by simp)) n
  · -- a fall-through into `t`, within the case
    refine ⟨0, x, fun h => absurd h (by simp [hu]), fun n => runLoop_of_exec_eq ?_ n⟩
    rw [groupFrom_of_next opts (hr.labels.of_map _) hs hn hu, exec_append, hexec, Outcome.bind_next]

theorem runLoop_dfaRun_from (hr : GroupRun opts env dfa .loopSwitch) {pre : List (CaseLbl × List Code)}
    (hpre : ∀ c ∈ pre, ∀ s ∈ dfa.states, c.1.hits env (some ((dfa.label s).index : Int)) = false)
    (rest : List (CaseLbl × List Code)) (n : Nat) :
    ∀ {s t : StateId} {m m' : Mem} (x : Val), s ∈ dfa.states →
      ((dfa.label s).used = true → x = ⟨some (dfa.label s).index, []⟩) →
      dfaRun opts dfa env n s m = some (t, m') →
      t ∈ dfa.states ∧ ∃ k x', ((dfa.label t).used = true → x' = ⟨some (dfa.label t).index, []⟩) ∧
        ∀ fuel, runLoop env (loopBody opts dfa pre rest) (fuel + k) (groupFrom opts dfa s)
            (m.set .yystate x) =
          runLoop env (loopBody opts dfa pre rest) fuel (groupFrom opts dfa t) (m'.set .yystate x') := by
  induction n with
  | zero =>
    intro s t m m' x hs hx h
    cases h
    exact ⟨hs, 0, x, hx, fun _ => rfl⟩
  | succ n ih =>
    intro s t m m' x hs _ h
    obtain ⟨⟨s1, m1⟩, h1, h2⟩ := Option.bind_eq_some.1 h
    obtain ⟨hs1, k1, x1, hx1, hk1⟩ := runLoop_dfaStep hr hpre rest hs h1 x
    obtain ⟨ht, k2, x2, hx2, hk2⟩ := ih x1 hs1 hx1 h2
    exact ⟨ht, k2 + k1, x2, hx2, fun fuel => by rw [← Nat.add_assoc, hk1, hk2]⟩

theorem runLoop_dfaRun (hr : GroupRun opts env dfa .loopSwitch) {pre : List (CaseLbl × List Code)}
    (hpre : ∀ c ∈ pre, ∀ s ∈ dfa.states, c.1.hits env (some ((dfa.label s).index : Int)) = false)
    (rest : List (CaseLbl × List Code)) (n : Nat) {s t : StateId} {m m' : Mem} (hs : s ∈ dfa.states) (hus : (dfa.label s).used = true)
    (hut : (dfa.label t).used = true) (h : dfaRun opts dfa env n s m = some (t, m')) :
    ∃ k, ∀ fuel,
      runLoop env (loopBody opts dfa pre rest) (fuel + k) (loopBody opts dfa pre rest)
          (m.setPos .yystate (some (dfa.label s).index)) =
        runLoop env (loopBody opts dfa pre rest) fuel (loopBody opts dfa pre rest)
          (m'.setPos .yystate (some (dfa.label t).index)) := by
  obtain ⟨ht, k, x, hx, hk⟩ := runLoop_dfaRun_from hr hpre rest n _ hs (fun _ => rfl) h
  refine ⟨k, fun fuel => ?_⟩
  rw [runLoop_of_exec_eq (exec_loopBody hr hpre rest hs hus _ (by simp [Mem.setPos])), Mem.setPos,
    hk, hx hut]
  exact runLoop_of_exec_eq (exec_loopBody hr hpre rest ht hut _ (by simp)).symm fuel

/-! Rec/func mode: the states of a group are a function, entered by a tail call. -/

def runCalls (env : Env) (fns : List FnDef) (fuel : Nat) (cs : List Code) (m : Mem) :
    Option Outcome :=
  match exec env cs m with
  | .jump m' (.call g) => runFn env fns fuel g m'
  | o => some o

theorem runFn_succ {fns : List FnDef} {f : Fn} {d : FnDef} (h : fns.find? (·.name == f) = some d)
    (fuel : Nat) (m : Mem) : runFn env fns (fuel + 1) f m = runCalls env fns fuel d.body m := by
  rw [runFn, h]
  rfl

theorem find?_groupFn (hr : GroupRun opts env dfa cm) (rest : List FnDef) {s : StateId}
    (hs : s ∈ dfa.states) (hu : (dfa.label s).used = true) :
    (genDfaAsRecursiveFunctions opts dfa ++ rest).find? (·.name == .state (dfa.label s).index) =
      some ⟨.state (dfa.label s).index, needYychArg dfa s, groupFrom opts dfa s⟩ := by
  have hmem : (⟨.state (dfa.label s).index, needYychArg dfa s, groupFrom opts dfa s⟩ : FnDef) ∈
      (groups dfa dfa.states).map fun g =>
        (⟨.state (dfa.label (g.headD 0)).index, needYychArg dfa (g.headD 0),
          g.flatMap (stateCode opts dfa)⟩ : FnDef) :=
    List.mem_map.2 ⟨_, group_mem_groups dfa (hr.labels.of_map _) hs hu, rfl⟩
  have hn := (nodup_group_heads [dfa] (by simpa using hr.labels)).map fun _ _ h => Fn.state.inj h
  simp only [List.flatMap_cons, List.flatMap_nil, List.append_nil, List.map_map] at hn
  rw [genDfaAsRecursiveFunctions_eq, List.append_assoc, List.find?_append,
    find?_eq_of_nodup_map (by simpa only [List.map_map] using hn) hmem fun _ _ => beq_iff_eq,
    Option.or_some]

theorem runCalls_dfaStep (hr : GroupRun opts env dfa .recFunc) (rest : List FnDef) {s t : StateId}
    {m m' : Mem} (hs : s ∈ dfa.states) (h : dfaStep opts dfa env s m = some (t, m')) :
    t ∈ dfa.states ∧ ∃ k, ∀ n,
      runCalls env (genDfaAsRecursiveFunctions opts dfa ++ rest) (n + k) (groupFrom opts dfa s) m =
        runCalls env (genDfaAsRecursiveFunctions opts dfa ++ rest) n (groupFrom opts dfa t) m' := by
  obtain ⟨ht, hcase⟩ := exec_stateCode_of_dfaStep hr hs h
  refine ⟨ht, ?_⟩
  rcases hcase with ⟨hu, hexec⟩ | ⟨hexec, hn, hu⟩
  · -- a tail call to the function of `t`
    refine ⟨1, fun n => ?_⟩
    rw [runCalls, groupFrom, List.flatMap_cons, exec_append, hexec, Outcome.bind_jump]
    exact runFn_succ (find?_groupFn hr rest ht hu) n m'
  · -- a fall-through into `t`, within the function
    refine ⟨0, fun n => ?_⟩
    rw [runCalls, runCalls, groupFrom_of_next opts (hr.labels.of_map _) hs hn hu, exec_append, hexec,
      Outcome.bind_next]
    rfl

theorem runCalls_dfaRun (hr : GroupRun opts env dfa .recFunc) (rest : List FnDef) (n : Nat) :
    ∀ {s t : StateId} {m m' : Mem}, s ∈ dfa.states → dfaRun opts dfa env n s m = some (t, m') →
      t ∈ dfa.states ∧ ∃ k, ∀ fuel,
        runCalls env (genDfaAsRecursiveFunctions opts dfa ++ rest) (fuel + k) (groupFrom opts dfa s) m =
          runCalls env (genDfaAsRecursiveFunctions opts dfa ++ rest) fuel (groupFrom opts dfa t) m' := by
  induction n with
  | zero =>
    intro s t m m' hs h
    cases h
    exact ⟨hs, 0, fun _ => rfl⟩
  | succ n ih =>
    intro s t m m' hs h
    obtain ⟨⟨s1, m1⟩, h1, h2⟩ := Option.bind_eq_some.1 h
    obtain ⟨hs1, k1, hk1⟩ := runCalls_dfaStep hr rest hs h1
    obtain ⟨ht, k2, hk2⟩ := ih hs1 h2
    exact ⟨ht, k2 + k1, fun fuel => by rw [← Nat.add_assoc, hk1, hk2]⟩

theorem runFn_dfaRun (hr : GroupRun opts env dfa .recFunc) (rest : List FnDef) (n : Nat)
    {s t : StateId} {m m' : Mem} (hs : s ∈ dfa.states) (hus : (dfa.label s).used = true)
    (hut : (dfa.label t).used = true) (h : dfaRun opts dfa env n s m = some (t, m')) :
    ∃ k, ∀ fuel,
      runFn env (genDfaAsRecursiveFunctions opts dfa ++ rest) (fuel + 1 + k) (.state (dfa.label s).index) m =
        runFn env (genDfaAsRecursiveFunctions opts dfa ++ rest) (fuel + 1) (.state (dfa.label t).index) m' := by
  obtain ⟨ht, k, hk⟩ := runCalls_dfaRun hr rest n hs h
  exact ⟨k, fun fuel => by
    rw [Nat.add_right_comm, runFn_succ (find?_groupFn hr rest hs hus), hk,
      runFn_succ (find?_groupFn hr rest ht hut)]⟩

end Runs

/-! A DFA of three states read in a ring: the initial state goes to state 1, which falls through
into state 2, whose label is unused, and state 2 goes back to state 1. -/

def defaultGo (t : StateId) (elide : Bool) : CodeGo :=
  { kind := .switchIf (.switch ⟨[⟨[], ⟨t, tcid0, false, elide, false⟩⟩], 0⟩), span := [⟨256, t⟩],
    tags := tcid0, skip := false }

def ringDfa : Adfa :=
  { (default : Adfa) with
    state := fun s => match s with
      | 0 => { (default : State) with label := ⟨0, true⟩, action := .initial none, go := defaultGo 1 false }
      | 1 => { (default : State) with label := ⟨1, true⟩, action := .match, go := defaultGo 2 true }
      | _ => { (default : State) with label := ⟨2, false⟩, action := .match, go := defaultGo 1 false }
    states := [0, 1, 2]
    initialLabel := ⟨3, false⟩ }

theorem ringDfa_groupRun (cm : CodeModel) :
    GroupRun { (default : Opts) with codeModel := cm } default ringDfa cm where
  model := rfl
  enough := ⟨rfl, fun h => by cases h⟩
  labels := by decide
  dispatch := by
    intro s hs _
    simp only [ringDfa, List.mem_cons, List.mem_singleton, List.not_mem_nil, or_false] at hs
    rcases hs with rfl | rfl | rfl <;> trivial
  targets := by decide

theorem runLoop_dfaRun_ring :
    ∃ m', dfaRun { (default : Opts) with codeModel := .loopSwitch } ringDfa default 3 0 startMem =
        some (1, m') ∧ ∃ k, ∀ fuel,
      runLoop default (loopBody { (default : Opts) with codeModel := .loopSwitch } ringDfa
          [(.number 7, [.abort]), (.ranges [(4, 6)], [.abort])] [(.dflt, [.abort])]) (fuel + k)
          (loopBody { (default : Opts) with codeModel := .loopSwitch } ringDfa
            [(.number 7, [.abort]), (.ranges [(4, 6)], [.abort])] [(.dflt, [.abort])])
          (startMem.setPos .yystate (some 0)) =
        runLoop default (loopBody { (default : Opts) with codeModel := .loopSwitch } ringDfa
          [(.number 7, [.abort]), (.ranges [(4, 6)], [.abort])] [(.dflt, [.abort])]) fuel
          (loopBody { (default : Opts) with codeModel := .loopSwitch } ringDfa
            [(.number 7, [.abort]), (.ranges [(4, 6)], [.abort])] [(.dflt, [.abort])])
          (m'.setPos .yystate (some 1)) :=
  ⟨_, rfl, runLoop_dfaRun (s := 0) (t := 1) (ringDfa_groupRun .loopSwitch) (by decide) _ 3 (by decide)
    rfl rfl rfl⟩

theorem runFn_dfaRun_ring :
    ∃ m', dfaRun { (default : Opts) with codeModel := .recFunc } ringDfa default 3 0 startMem =
        some (1, m') ∧ ∃ k, ∀ fuel,
      runFn default (genDfaAsRecursiveFunctions { (default : Opts) with codeModel := .recFunc } ringDfa ++ [])
          (fuel + 1 + k) (.state 0) startMem =
        runFn default (genDfaAsRecursiveFunctions { (default : Opts) with codeModel := .recFunc } ringDfa ++ [])
          (fuel + 1) (.state 1) m' :=
  ⟨_, rfl, runFn_dfaRun (s := 0) (t := 1) (ringDfa_groupRun .recFunc) [] 3 (by decide) rfl rfl rfl⟩

end Re2cCodegen.GroupedRuns
