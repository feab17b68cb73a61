import Re2cCodegen.Block
import Re2cCodegen.HoistedTags

/-! The code of a DFA run as a program. With enough input and no end-of-input rule, the
statements of a state that reads a character take it, in every code model, into the state
that its dispatch selects on that character. In goto/label mode the code of the DFA then
follows every run of the DFA: from the code of a state it reaches the code of the next, by a
`goto` or by falling through, with the memory the run gives. -/

namespace Re2cCodegen.Program

open Re2cCodegen.Options Re2cCodegen.Dfa Re2cCodegen.Output Re2cCodegen.TagActions
  Re2cCodegen.Transitions Re2cCodegen.Dispatch Re2cCodegen.States Re2cCodegen.Layout
  Re2cCodegen.Block Re2cCodegen.HoistedTags Re2cCodegen.Accept

def consumes : Action → Bool
  | .match | .initial _ | .save _ | .move => true
  | .accept _ | .rule _ => false

/-- What the statements of state `s` do before its dispatch when no `YYFILL` is due: the debug
hook of its label, then the `yyaccept` value, `YYSKIP`, `YYBACKUP` and `YYPEEK` of its action. -/
def actionMem (opts : Opts) (dfa : Adfa) (env : Env) (s : StateId) (m : Mem) : Mem :=
  let l := dfa.label s
  let skip := fun m : Mem => m.shift .cursor 1
  let backup := fun m : Mem => m.setPos .marker (m.get .cursor)
  let accept := fun (n : Nat) (m : Mem) => m.assign [.yyaccept] ⟨some n, []⟩
  let debug := fun (l : Label) (m : Mem) => if opts.debug then m.emit (.debug l.index) else m
  let peek := fun m : Mem => if omitPeek dfa s then m else m.setPos .yych ((m.get .cursor).map env.input)
  let entered := if l.used then debug l m else m
  match dfa.action s with
  | .match => peek (if !opts.eagerSkip then skip entered else entered)
  | .initial save =>
    let m1 := if l.used && 1 < dfa.accepts && save.isSome then accept (save.getD 0) m else m
    let m2 := if l.used && !opts.eagerSkip then skip m1 else m1
    debug dfa.initialLabel (peek (if save.isSome then backup m2 else m2))
  | .save save =>
    let m1 := if 1 < dfa.accepts then accept save entered else entered
    peek (backup (if !opts.eagerSkip then skip m1 else m1))
  | .move => entered
  | .accept _ | .rule _ => m

/-- One step of the DFA as the code of state `s` takes it: the character the state's statements
leave in `yych`, the transition the dispatch selects on it, and the memory after the state's
statements, its tags and `YYSKIP`, and the transition's. `none` for a state that reads no
character, and when the dispatch selects nothing. -/
def dfaStep (opts : Opts) (dfa : Adfa) (env : Env) (s : StateId) (m : Mem) : Option (StateId × Mem) :=
  if consumes (dfa.action s) then
    let m1 := actionMem opts dfa env s m
    let c := m1.get .yych
    (selectGo env.yybm (dfa.go s).kind c).map fun j =>
      (j.dest, jumpMem opts dfa env j (goTables dfa (dfa.go s).kind c (preMem opts dfa env (dfa.go s) m1)))
  else none

def dfaRun (opts : Opts) (dfa : Adfa) (env : Env) : Nat → StateId → Mem → Option (StateId × Mem)
  | 0, s, m => some (s, m)
  | n + 1, s, m => (dfaStep opts dfa env s m).bind fun p => dfaRun opts dfa env n p.1 p.2

def acceptAlt (acc : List AcceptTrans) (m : Mem) : Option AcceptTrans :=
  if acc.length = 1 then acc.head?
  else (m.get .yyaccept).bind fun v => if 0 ≤ v then acc.get? v.toNat else none

def acceptStep (opts : Opts) (dfa : Adfa) (env : Env) (s : StateId) (m : Mem) :
    Option (StateId × Mem) :=
  match dfa.action s with
  | .accept acc =>
    let l := dfa.label s
    let m1 := if l.used && opts.debug then m.emit (.debug l.index) else m
    (acceptAlt acc m1).map fun a => (a.state, runTags opts dfa env a.tags (restoreMem m1))
  | _ => none

def lexStep (opts : Opts) (dfa : Adfa) (env : Env) (s : StateId) (m : Mem) : Option (StateId × Mem) :=
  (dfaStep opts dfa env s m).or (acceptStep opts dfa env s m)

def lexRun (opts : Opts) (dfa : Adfa) (env : Env) : Nat → StateId → Mem → Option (StateId × Mem)
  | 0, s, m => some (s, m)
  | n + 1, s, m => (lexStep opts dfa env s m).bind fun p => lexRun opts dfa env n p.1 p.2

/-! The statements of one state. -/

section

variable (opts : Opts) (dfa : Adfa) (env : Env)

/-- No end-of-input rule, and either no `YYFILL` or enough input that its check fails. -/
def Enough : Prop :=
  opts.fillEof = none ∧ (opts.fillEnable = true → opts.fillCheck = true ∧ ∀ n, env.lessThan n = false)

variable {opts env}

theorem exec_genFillAndLabel_enough (h : Enough opts env) (s : StateId) (m : Mem) :
    exec env (genFillAndLabel opts dfa s) m = .next m := by
  have hfill : exec env (if opts.fillEnable && !endstate dfa s && opts.fillEof.isNone &&
      0 < (dfa.state s).fill then genFill opts dfa [] s none else []) m = .next m := by
    split
    · rename_i hc
      have hfe : opts.fillEnable = true := by simp_all
      exact exec_genFill_of_not_lt opts dfa env m [] s none (h.2 hfe).1 (by simp [h.1, (h.2 hfe).2])
    · rfl
  unfold genFillAndLabel
  rw [exec_append, exec_append, hfill, Outcome.bind_next, h.1]
  simp only [Option.isSome_none, Bool.false_eq_true, if_false, exec_nil, Outcome.bind_next]
  split
  · split <;> rfl
  · rfl

theorem exec_ite_single {p : Prop} [Decidable p] (c : Code) {f : Mem → Mem}
    (hc : ∀ m, step env c m = .next (f m)) (m : Mem) :
    exec env (if p then [c] else []) m = .next (if p then f m else m) := by
  split
  · rw [exec_cons, hc, Outcome.bind_next]; rfl
  · rfl

theorem exec_prologue (s : StateId) (hc : consumes (dfa.action s)) (h : Enough opts env) (m : Mem) :
    exec env (emitState opts dfa s ++ emitAction opts dfa s) m = .next (actionMem opts dfa env s m) := by
  have hfl := exec_genFillAndLabel_enough dfa h s
  have hdebug : ∀ l m, exec env (genDebug opts l) m =
      .next (if opts.debug then m.emit (.debug l.index) else m) := fun l m => exec_ite_single (.debug l.index) (fun _ => rfl) m
  have hpeek : ∀ m, exec env (genPeek dfa s) m =
      .next (if omitPeek dfa s then m else m.setPos .yych ((m.get .cursor).map env.input)) := by
    intro m; unfold genPeek; split <;> rfl
  have hskip : ∀ (p : Prop) [Decidable p] m, exec env (if p then [Code.skip] else []) m =
      .next (if p then m.shift .cursor 1 else m) := fun p _ => exec_ite_single .skip fun _ => rfl
  have hacc : ∀ (p : Prop) [Decidable p] (n : Int) m,
      exec env (if p then [Code.assign [.yyaccept] (.num n)] else []) m =
        .next (if p then m.assign [.yyaccept] ⟨some n, []⟩ else m) :=
    fun p _ n => exec_ite_single (.assign [.yyaccept] (.num n)) fun _ => rfl
  have hbackup : ∀ (p : Prop) [Decidable p] m, exec env (if p then [Code.backup] else []) m =
      .next (if p then m.setPos .marker (m.get .cursor) else m) :=
    fun p _ => exec_ite_single .backup fun _ => rfl
  have hlabel : ∀ (p : Prop) [Decidable p] (l : Lbl) m,
      exec env (if p then [Code.label l] else []) m = .next m := fun p _ l m => by
    split <;> rfl
  unfold emitState emitAction actionMem
  cases ha : dfa.action s with
  | «match» =>
    cases hu : (dfa.label s).used <;>
      simp [hu, exec_append, hlabel, hdebug, hskip, hfl, hpeek]
  | initial save =>
    cases hu : (dfa.label s).used <;>
      simp [hu, exec_append, hlabel, hskip, hacc, hbackup, hfl, hpeek, hdebug, exec_cons, step]
  | save save =>
    cases hu : (dfa.label s).used <;>
      simp [hu, exec_append, hlabel, hdebug, hskip, hacc, hfl, hpeek, exec_cons, step]
  | move => cases hu : (dfa.label s).used <;> simp [hu, exec_append, hlabel, hdebug]
  | accept _ => rw [ha] at hc; cases hc
  | rule _ => rw [ha] at hc; cases hc

theorem exec_genGoto_enough (h : Enough opts env) (s : StateId) (j : CodeJump) (m : Mem) :
    exec env (genGoto opts dfa (some s) j) m = exec env (genTransition opts dfa j) m := by
  cases he : j.eof
  · simp [genGoto, he]
  · rw [show genGoto opts dfa (some s) j = genFill opts dfa (genTransition opts dfa j) s (some j) by
      simp [genGoto, he]]
    by_cases hfe : opts.fillEnable
    · exact exec_genFill_of_not_lt opts dfa env m _ s _ (h.2 hfe).1 (by simp [h.1, (h.2 hfe).2])
    · rw [genFill_of_nil opts dfa _ s _ (by simp [fillStmts, hfe, h.1])]

theorem exec_stateCode (s : StateId) (hc : consumes (dfa.action s)) (h : Enough opts env)
    (hwf : DispatchWF opts dfa (dfa.go s).kind) {j : CodeJump} (m : Mem)
    (hj : selectGo env.yybm (dfa.go s).kind ((actionMem opts dfa env s m).get .yych) = some j) :
    exec env (stateCode opts dfa s) m =
      exec env (genTransition opts dfa j) (goTables dfa (dfa.go s).kind
        ((actionMem opts dfa env s m).get .yych) (preMem opts dfa env (dfa.go s) (actionMem opts dfa env s m))) := by
  unfold stateCode
  rw [exec_append, exec_prologue dfa s hc h, Outcome.bind_next,
    exec_genGo_eq opts dfa env s _ hwf _ hj, exec_genGoto_enough dfa h]

theorem stateCode_reaches (s : StateId) (hc : consumes (dfa.action s)) (h : Enough opts env)
    (hwf : DispatchWF opts dfa (dfa.go s).kind) {j : CodeJump} (m : Mem)
    (hj : selectGo env.yybm (dfa.go s).kind ((actionMem opts dfa env s m).get .yych) = some j) :
    Reaches opts dfa j j.dest
      (jumpMem opts dfa env j (goTables dfa (dfa.go s).kind ((actionMem opts dfa env s m).get .yych)
        (preMem opts dfa env (dfa.go s) (actionMem opts dfa env s m))))
      (exec env (stateCode opts dfa s) m) := by
  rw [exec_stateCode dfa s hc h hwf m hj]
  exact reaches_genTransition opts dfa env _ j

end

/-! The code of a DFA in goto/label mode, from the code of one state to that of the next. -/

def nextState (l : List StateId) (s : StateId) : Option StateId := ((l.dropWhile (· ≠ s)).drop 1).head?

def dispatchTargets : GoKind → List CodeJump
  | .bitmap go => bmJump go :: goJumps (.bitmap go)
  | .cpgoto go => goJumps (.cpgoto go) ++ go.table.map fun t => ⟨t, tcid0, false, false, false⟩
  | k => goJumps k

def codeFrom (opts : Opts) (dfa : Adfa) (rest : List Code) (s : StateId) : List Code :=
  (dfa.states.dropWhile (· ≠ s)).flatMap (stateCode opts dfa) ++ rest

structure GotoRun (opts : Opts) (env : Env) (dfa : Adfa) : Prop where
  model : opts.codeModel = .gotoLabel
  enough : Enough opts env
  labels : (dfa.states.map fun s => (dfa.label s).index).Nodup
  initial : dfa.initialLabel.index ∉ dfa.states.map fun s => (dfa.label s).index
  dispatch : ∀ s ∈ dfa.states, consumes (dfa.action s) → DispatchWF opts dfa (dfa.go s).kind
  targets : ∀ s ∈ dfa.states, consumes (dfa.action s) → ∀ j ∈ dispatchTargets (dfa.go s).kind,
    j.dest ∈ dfa.states ∧ (emitsTransfer dfa j = false → nextState dfa.states s = some j.dest)

structure LexRun (opts : Opts) (env : Env) (dfa : Adfa) extends GotoRun opts env dfa : Prop where
  noTable : opts.computedGotos = false
  accepts : ∀ s ∈ dfa.states, ∀ acc, dfa.action s = .accept acc →
    ∀ a ∈ acc, a.state ∈ dfa.states ∧ (dfa.label a.state).used = true

theorem selectSwitch_mem {go : CodeGoSw} {c : Option Int} {j : CodeJump} (h : selectSwitch go c = some j) :
    j ∈ go.cases.map (·.jump) := by
  unfold selectSwitch at h
  split at h
  · rename_i k hf
    cases h
    exact List.mem_map_of_mem _
      (List.snd_mem_of_mem_enum (List.mem_filter.1 (List.mem_of_find?_eq_some hf)).1)
  · obtain ⟨k, hk, rfl⟩ := Option.map_eq_some'.1 h
    exact List.mem_map_of_mem _ (List.get?_mem hk)

theorem selectGoif_mem (go : CodeGoIf) {c : Option Int} {j : CodeJump} (h : selectGoif go c = some j) :
    j ∈ goIfJumps go := by
  induction go with
  | binary cond t e iht ihe =>
    simp only [selectGoif] at h
    split at h
    · exact List.mem_append_left _ (iht h)
    · exact List.mem_append_right _ (ihe h)
  | linear bs =>
    obtain ⟨b, hb, rfl⟩ := Option.map_eq_some'.1 h
    exact List.mem_map_of_mem _ (List.mem_of_find?_eq_some hb)

theorem selectSwIf_mem (go : CodeGoSwIf) {c : Option Int} {j : CodeJump} (h : selectSwIf go c = some j) :
    j ∈ goSwIfJumps go := by
  cases go with
  | switch g => exact selectSwitch_mem h
  | ifs g => exact selectGoif_mem g h

theorem selectOpt_mem {go : Option CodeGoSwIf} {c : Option Int} {j : CodeJump} (h : selectOpt go c = some j) :
    j ∈ (go.map goSwIfJumps).getD [] := by
  cases go with
  | none => cases h
  | some g => exact selectSwIf_mem g h

theorem selectGo_mem (yybm : Nat → Nat) (k : GoKind) {c : Option Int} {j : CodeJump}
    (h : selectGo yybm k c = some j) : j ∈ dispatchTargets k := by
  cases k with
  | dot => cases h
  | switchIf g => exact selectSwIf_mem g h
  | bitmap g =>
    simp only [selectGo, selectGobm] at h
    simp only [dispatchTargets, goJumps, List.mem_cons, List.mem_append]
    rcases Option.or_eq_some.1 h with h | ⟨-, h⟩
    · split at h
      · exact .inr (.inl (selectOpt_mem h))
      · split at h
        · cases h; exact .inl rfl
        · cases h
    · exact .inr (.inr (selectOpt_mem h))
  | cpgoto g =>
    simp only [selectGo, selectGocp] at h
    simp only [dispatchTargets, goJumps, List.mem_append]
    split at h
    · exact .inl (selectOpt_mem h)
    · obtain ⟨x, -, hx⟩ := Option.bind_eq_some.1 h
      split at hx
      · obtain ⟨t, ht, rfl⟩ := Option.map_eq_some'.1 hx
        exact .inr (List.mem_map_of_mem _ (List.get?_mem ht))
      · cases hx

theorem dropWhile_ne_of_mem {l : List StateId} {s : StateId} (h : s ∈ l) :
    ∃ r, l.dropWhile (· ≠ s) = s :: r := by
  induction l with
  | nil => cases h
  | cons a l ih =>
    by_cases ha : a = s
    · subst ha; exact ⟨l, by simp [List.dropWhile]⟩
    · rw [List.dropWhile_cons_of_pos (by simpa using ha)]
      exact ih ((List.mem_cons.1 h).resolve_left (Ne.symm ha))

theorem dropWhile_ne_next {l : List StateId} (hnd : l.Nodup) {s t : StateId} {r : List StateId}
    (h : l.dropWhile (· ≠ s) = s :: t :: r) : l.dropWhile (· ≠ t) = t :: r := by
  induction l with
  | nil => cases h
  | cons a l ih =>
    rw [List.nodup_cons] at hnd
    by_cases ha : a = s
    · subst ha
      rw [List.dropWhile_cons_of_neg (by simp)] at h
      cases h
      have hst : a ≠ t := fun hat => hnd.1 (hat ▸ List.mem_cons_self _ _)
      rw [List.dropWhile_cons_of_pos (by simpa using hst), List.dropWhile_cons_of_neg (by simp)]
    · rw [List.dropWhile_cons_of_pos (by simpa using ha)] at h
      have ht : t ∈ l := (List.dropWhile_suffix _).subset (by rw [h]; simp)
      have hat : a ≠ t := fun hat => hnd.1 (hat ▸ ht)
      rw [List.dropWhile_cons_of_pos (by simpa using hat)]
      exact ih hnd.2 h

section

variable {opts : Opts} {env : Env} {dfa : Adfa}

theorem runGoto_of_exec_eq {code cs cs' : List Code} {m m' : Mem} (h : exec env cs m = exec env cs' m')
    (n : Nat) : runGoto env code n cs m = runGoto env code n cs' m' := by
  cases n <;> simp only [runGoto, h]

theorem afterLabel_codeFrom (hr : GotoRun opts env dfa) (rest : List Code) {t : StateId}
    (ht : t ∈ dfa.states) (hu : (dfa.label t).used = true) :
    ∃ cs, afterLabel (.num (dfa.label t).index) (genDfaAsBlocksWithLabels opts dfa ++ rest) = some cs ∧
      ∀ m, exec env cs m = exec env (codeFrom opts dfa rest t) m := by
  obtain ⟨pre, post, hsplit⟩ := List.append_of_mem ht
  have hnd := hr.labels
  rw [hsplit, List.map_append, List.map_cons, List.nodup_append] at hnd
  have hpre : ∀ p ∈ pre, (dfa.label p).index ≠ (dfa.label t).index := fun p hp he =>
    hnd.2.2 (List.mem_map_of_mem _ hp) (by rw [he]; exact List.mem_cons_self _ _)
  have hdrop : dfa.states.dropWhile (· ≠ t) = t :: post := by
    rw [hsplit, List.dropWhile_append_of_pos (fun p hp => by simpa using fun h : p = t => hpre p hp (by rw [h])),
      List.dropWhile_cons_of_neg (by simp)]
  obtain ⟨cs, hcode⟩ : ∃ cs, stateCode opts dfa t = .label (.num (dfa.label t).index) :: cs := by
    simp [stateCode, emitState, hu, hr.model]
  refine ⟨cs ++ (post.flatMap (stateCode opts dfa) ++ rest), ?_, fun m => ?_⟩
  · rw [genDfaAsBlocksWithLabels, hsplit, List.flatMap_append, List.flatMap_cons, hcode, List.append_assoc,
      List.append_assoc, afterLabel_append (by split <;> rfl), afterLabel_append]
    · simp only [List.cons_append, afterLabel_label_cons, List.append_assoc]
    rw [List.all_flatMap, List.all_eq_true]
    intro p hp
    refine stateCode_labels opts dfa _ (fun _ => rfl) p ?_ ?_
    · simpa using hpre p hp
    · simpa using fun h : dfa.initialLabel.index = (dfa.label t).index =>
        hr.initial (h ▸ List.mem_map_of_mem _ ht)
  · rw [codeFrom, hdrop, List.flatMap_cons, hcode, List.cons_append, List.cons_append, exec_cons,
      List.append_assoc]
    rfl

theorem exec_codeFrom {s : StateId} {r : List StateId} (hr : dfa.states.dropWhile (· ≠ s) = s :: r)
    (rest : List Code) (m : Mem) : exec env (codeFrom opts dfa rest s) m =
      (exec env (stateCode opts dfa s) m).bind (exec env (r.flatMap (stateCode opts dfa) ++ rest)) := by
  rw [codeFrom, hr, List.flatMap_cons, List.append_assoc, exec_append]

theorem runGoto_jump (hr : GotoRun opts env dfa) (rest : List Code) {s t : StateId} {m m' : Mem}
    (hs : s ∈ dfa.states) (ht : t ∈ dfa.states) (hu : (dfa.label t).used = true)
    (h : exec env (stateCode opts dfa s) m = .jump m' (stateExit opts.codeModel dfa t)) (n : Nat) :
    runGoto env (genDfaAsBlocksWithLabels opts dfa ++ rest) (n + 1) (codeFrom opts dfa rest s) m =
      runGoto env (genDfaAsBlocksWithLabels opts dfa ++ rest) n (codeFrom opts dfa rest t) m' := by
  obtain ⟨r, hr'⟩ := dropWhile_ne_of_mem hs
  obtain ⟨cs, hcs, hexec⟩ := afterLabel_codeFrom hr rest ht hu
  rw [runGoto, exec_codeFrom hr', h, Outcome.bind_jump, hr.model]
  dsimp only [stateExit]
  rw [hcs]
  exact runGoto_of_exec_eq (hexec _) n

theorem runGoto_dfaStep (hr : GotoRun opts env dfa) (rest : List Code) {s t : StateId} {m m' : Mem}
    (hs : s ∈ dfa.states) (h : dfaStep opts dfa env s m = some (t, m')) :
    t ∈ dfa.states ∧ ∃ k, ∀ n,
      runGoto env (genDfaAsBlocksWithLabels opts dfa ++ rest) (n + k) (codeFrom opts dfa rest s) m =
        runGoto env (genDfaAsBlocksWithLabels opts dfa ++ rest) n (codeFrom opts dfa rest t) m' := by
  unfold dfaStep at h
  split at h
  case isFalse => cases h
  rename_i hc
  obtain ⟨j, hj, heq⟩ := Option.map_eq_some'.1 h
  cases heq
  obtain ⟨hdest, hnext⟩ := hr.targets s hs hc j (selectGo_mem _ _ hj)
  refine ⟨hdest, ?_⟩
  have hexec := exec_stateCode dfa s hc hr.enough (hr.dispatch s hs hc) m hj
  rw [exec_genTransition] at hexec
  cases he : emitsTransfer dfa j
  · -- the jump is elided: the code falls through into the code of the next state
    rw [if_neg (by simp [he])] at hexec
    obtain ⟨r, hr'⟩ := dropWhile_ne_of_mem hs
    obtain ⟨t', ht'⟩ : ∃ r', r = j.dest :: r' := by
      have := hnext he
      rw [nextState, hr'] at this
      cases r with
      | nil => cases this
      | cons t' r' => cases this; exact ⟨r', rfl⟩
    subst ht'
    refine ⟨0, fun n => runGoto_of_exec_eq ?_ n⟩
    rw [exec_codeFrom hr', hexec, Outcome.bind_next, codeFrom,
      dropWhile_ne_next (hr.labels.of_map _) hr', List.flatMap_cons, List.append_assoc]
  · -- the jump goes to the label of the state
    rw [if_pos he] at hexec
    have hu : (dfa.label j.dest).used = true := by
      simp only [emitsTransfer, Bool.and_eq_true] at he; exact he.2
    exact ⟨1, runGoto_jump hr rest hs hdest hu hexec⟩

theorem runGoto_dfaRun (hr : GotoRun opts env dfa) (rest : List Code) (n : Nat) :
    ∀ {s t : StateId} {m m' : Mem}, s ∈ dfa.states → dfaRun opts dfa env n s m = some (t, m') →
      ∃ k, ∀ fuel,
        runGoto env (genDfaAsBlocksWithLabels opts dfa ++ rest) (fuel + k) (codeFrom opts dfa rest s) m =
          runGoto env (genDfaAsBlocksWithLabels opts dfa ++ rest) fuel (codeFrom opts dfa rest t) m' := by
  induction n with
  | zero =>
    intro s t m m' _ h
    cases h
    exact ⟨0, fun _ => rfl⟩
  | succ n ih =>
    intro s t m m' hs h
    obtain ⟨⟨s1, m1⟩, h1, h2⟩ := Option.bind_eq_some.1 h
    obtain ⟨hs1, k1, hk1⟩ := runGoto_dfaStep hr rest hs h1
    obtain ⟨k2, hk2⟩ := ih hs1 h2
    exact ⟨k2 + k1, fun fuel => by rw [← Nat.add_assoc, hk1, hk2]⟩

theorem acceptAlt_mem {acc : List AcceptTrans} {m : Mem} {a : AcceptTrans} (h : acceptAlt acc m = some a) :
    a ∈ acc := by
  unfold acceptAlt at h
  split at h
  · exact List.mem_of_mem_head? h
  · obtain ⟨v, -, h⟩ := Option.bind_eq_some.1 h
    split at h
    · exact List.get?_mem h
    · cases h

theorem lexRun_add (a b : Nat) : ∀ s m, lexRun opts dfa env (a + b) s m =
    (lexRun opts dfa env a s m).bind fun p => lexRun opts dfa env b p.1 p.2 := by
  induction a with
  | zero => intro s m; rw [Nat.zero_add]; rfl
  | succ a ih =>
    intro s m
    rw [Nat.add_right_comm, lexRun, lexRun, Option.bind_assoc]
    simp only [ih]

theorem exec_emitState_entered {s : StateId} (hi : ∀ save, dfa.action s ≠ .initial save) (m : Mem) :
    exec env (emitState opts dfa s) m =
      .next (if (dfa.label s).used && opts.debug then m.emit (.debug (dfa.label s).index) else m) := by
  have hlabel : exec env (if opts.codeModel = .gotoLabel then [Code.label (.num (dfa.label s).index)]
      else []) m = .next m := by split <;> rfl
  unfold emitState
  dsimp only
  cases ha : dfa.action s
  case initial save => exact absurd ha (hi save)
  all_goals
    cases (dfa.label s).used
    · rfl
    · simp only [Bool.not_true, Bool.false_eq_true, if_false, exec_append, hlabel, Outcome.bind_next,
        Bool.true_and]
      exact exec_ite_single (.debug _) (fun _ => rfl) m

theorem exec_emitAccept_alt {acc : List AcceptTrans} (hused : ∀ a ∈ acc, (dfa.label a.state).used = true)
    (hcg : opts.computedGotos = false) {a : AcceptTrans} {m : Mem} (ha : acceptAlt acc m = some a) :
    exec env (emitAccept opts dfa acc) m = acceptOutcome opts dfa env a (restoreMem m) := by
  unfold emitAccept
  dsimp only
  rw [if_neg (fun h => by simp [acceptAlt, List.length_eq_zero.1 h] at ha), exec_append,
    exec_genRestore, Outcome.bind_next]
  unfold acceptAlt at ha
  by_cases h1 : acc.length = 1
  · obtain ⟨a0, rfl⟩ := List.length_eq_one.1 h1
    rw [if_pos h1] at ha ⊢
    cases ha
    exact exec_acceptJump opts dfa env _ (hused _ (List.mem_singleton_self _)) _
  · rw [if_neg h1] at ha ⊢
    obtain ⟨v, hv, ha⟩ := Option.bind_eq_some.1 ha
    obtain ⟨hv0, ha⟩ : 0 ≤ v ∧ acc.get? v.toNat = some a := by
      split at ha
      · exact ⟨‹_›, ha⟩
      · cases ha
    obtain ⟨hlt, hget⟩ := List.get?_eq_some.1 ha
    have hm : (restoreMem m).get .yyaccept = some (v.toNat : Int) := by
      simp [restoreMem, Mem.setPos, hv, Int.toNat_of_nonneg hv0]
    have hd : acc.getD v.toNat default = a := by simp [List.getD_eq_getElem?_getD, hlt, ← hget]
    rw [if_neg (by simp [hcg]), ← hd]
    split
    · exact exec_emitAcceptBinary opts dfa env acc hused 0 (acc.length - 1) v.toNat (Nat.zero_le _)
        (by omega) (by omega) _ hm
    · exact exec_acceptSwitch opts dfa env acc hused v.toNat hlt _ hm

theorem exec_stateCode_accept (hcg : opts.computedGotos = false) {s t : StateId} {acc : List AcceptTrans}
    (ha : dfa.action s = .accept acc) (hused : ∀ a ∈ acc, (dfa.label a.state).used = true) {m m' : Mem}
    (h : acceptStep opts dfa env s m = some (t, m')) :
    exec env (stateCode opts dfa s) m = .jump m' (stateExit opts.codeModel dfa t) := by
  unfold acceptStep at h
  rw [ha] at h
  obtain ⟨a, hA, heq⟩ := Option.map_eq_some'.1 h
  cases heq
  rw [stateCode, exec_append, exec_append, exec_emitState_entered (fun _ h => by cases ha.symm.trans h),
    Outcome.bind_next,
    show emitAction opts dfa s = emitAccept opts dfa acc by simp only [emitAction, ha],
    exec_emitAccept_alt hused hcg hA]
  rfl

theorem runGoto_lexStep (hr : LexRun opts env dfa) (rest : List Code) {s t : StateId} {m m' : Mem}
    (hs : s ∈ dfa.states) (h : lexStep opts dfa env s m = some (t, m')) :
    t ∈ dfa.states ∧ ∃ k, ∀ n,
      runGoto env (genDfaAsBlocksWithLabels opts dfa ++ rest) (n + k) (codeFrom opts dfa rest s) m =
        runGoto env (genDfaAsBlocksWithLabels opts dfa ++ rest) n (codeFrom opts dfa rest t) m' := by
  cases hd : dfaStep opts dfa env s m with
  | some p =>
    rw [lexStep, hd, Option.or_some] at h
    exact runGoto_dfaStep hr.toGotoRun rest hs (hd.trans h)
  | none =>
    rw [lexStep, hd, Option.none_or] at h
    obtain ⟨acc, ha⟩ : ∃ acc, dfa.action s = .accept acc := by
      unfold acceptStep at h
      split at h
      · exact ⟨_, ‹_›⟩
      · cases h
    have hacc := hr.accepts s hs acc ha
    obtain ⟨a, hA, rfl⟩ : ∃ a ∈ acc, a.state = t := by
      unfold acceptStep at h
      rw [ha] at h
      obtain ⟨a, hA, heq⟩ := Option.map_eq_some'.1 h
      exact ⟨a, acceptAlt_mem hA, congrArg Prod.fst heq⟩
    exact ⟨(hacc a hA).1, 1, runGoto_jump hr.toGotoRun rest hs (hacc a hA).1 (hacc a hA).2
      (exec_stateCode_accept hr.noTable ha (fun a ha => (hacc a ha).2) h)⟩

theorem runGoto_lexRun_states (hr : LexRun opts env dfa) (rest : List Code) (n : Nat) :
    ∀ {s t : StateId} {m m' : Mem}, s ∈ dfa.states → lexRun opts dfa env n s m = some (t, m') →
      t ∈ dfa.states ∧ ∃ k, ∀ fuel,
        runGoto env (genDfaAsBlocksWithLabels opts dfa ++ rest) (fuel + k) (codeFrom opts dfa rest s) m =
          runGoto env (genDfaAsBlocksWithLabels opts dfa ++ rest) fuel (codeFrom opts dfa rest t) m' := by
  induction n with
  | zero =>
    intro s t m m' hs h
    cases h
    exact ⟨hs, 0, fun _ => rfl⟩
  | succ n ih =>
    intro s t m m' hs h
    obtain ⟨⟨s1, m1⟩, h1, h2⟩ := Option.bind_eq_some.1 h
    obtain ⟨hs1, k1, hk1⟩ := runGoto_lexStep hr rest hs h1
    obtain ⟨ht, k2, hk2⟩ := ih hs1 h2
    exact ⟨ht, k2 + k1, fun fuel => by rw [← Nat.add_assoc, hk1, hk2]⟩

theorem runGoto_lexRun (hr : LexRun opts env dfa) (rest : List Code) (n : Nat) :
    ∀ {s t : StateId} {m m' : Mem}, s ∈ dfa.states → lexRun opts dfa env n s m = some (t, m') →
      ∃ k, ∀ fuel,
        runGoto env (genDfaAsBlocksWithLabels opts dfa ++ rest) (fuel + k) (codeFrom opts dfa rest s) m =
          runGoto env (genDfaAsBlocksWithLabels opts dfa ++ rest) fuel (codeFrom opts dfa rest t) m' :=
  fun hs h => (runGoto_lexRun_states hr rest n hs h).2

end

/-! A DFA of three states: the initial state tests the bitmap of `bitmapGo` and goes to state 1,
which reads a character and falls through to the rule state 2. -/

def fallGo : CodeGo :=
  { kind := .switchIf (.switch ⟨[⟨[], ⟨2, tcid0, false, true, false⟩⟩], 0⟩), span := [⟨97, 2⟩, ⟨256, 2⟩],
    tags := tcid0, skip := false }

def bitmapDfa : Adfa :=
  { (default : Adfa) with
    state := fun s => match s with
      | 0 => { (default : State) with label := ⟨0, true⟩, action := .initial none, go := bitmapGo }
      | 1 => { (default : State) with label := ⟨1, true⟩, action := .match, go := fallGo }
      | _ => { (default : State) with label := ⟨2, true⟩, action := .rule 0 }
    states := [0, 1, 2]
    initialLabel := ⟨3, false⟩ }

def startMem : Mem := (default : Mem).setPos .cursor (some 0)

theorem bitmapDfa_gotoRun : GotoRun default bitmapEnv bitmapDfa where
  model := rfl
  enough := ⟨rfl, fun h => by cases h⟩
  labels := by decide
  initial := by decide
  dispatch := by
    intro s hs hc
    simp only [bitmapDfa, List.mem_cons, List.mem_singleton, List.not_mem_nil, or_false] at hs
    rcases hs with rfl | rfl | rfl
    · refine ⟨fun _ h => ?_, fun g hg => ?_, fun _ => ⟨fun _ _ hj => ?_, rfl, fun h => ?_⟩⟩
      · cases h
      · cases hg
        trivial
      · cases hj
      · cases h
    · trivial
    · cases hc
  targets := by decide

theorem stateCode_reaches_bitmap :
    ∃ m', Reaches default bitmapDfa ⟨1, tcid0, false, false, false⟩ 1 m'
      (exec bitmapEnv (stateCode default bitmapDfa 0) startMem) :=
  ⟨_, stateCode_reaches bitmapDfa 0 rfl bitmapDfa_gotoRun.enough
    (bitmapDfa_gotoRun.dispatch 0 (by decide) rfl) startMem rfl⟩

theorem runGoto_dfaRun_bitmap :
    ∃ m', dfaRun default bitmapDfa bitmapEnv 2 0 startMem = some (2, m') ∧ ∃ k, ∀ fuel,
      runGoto bitmapEnv (genDfaAsBlocksWithLabels default bitmapDfa ++ []) (fuel + k)
          (codeFrom default bitmapDfa [] 0) startMem =
        runGoto bitmapEnv (genDfaAsBlocksWithLabels default bitmapDfa ++ []) fuel
          (codeFrom default bitmapDfa [] 2) m' :=
  ⟨_, rfl, runGoto_dfaRun bitmapDfa_gotoRun [] 2 (by decide) rfl⟩

/-! A DFA that backtracks: state 1 saves its match as alternative 1 of `yyaccept` and the
position in the marker, and the ACCEPT state 2, which the next character leads to, goes back
there and on to the rule state 4 of that alternative. -/

def gotoGo (t : StateId) : CodeGo :=
  { kind := .switchIf (.switch ⟨[⟨[], ⟨t, tcid0, false, false, false⟩⟩], 0⟩), span := [⟨256, t⟩],
    tags := tcid0, skip := false }

def backtrackDfa : Adfa :=
  { (default : Adfa) with
    state := fun s => match s with
      | 0 => { (default : State) with label := ⟨0, true⟩, action := .initial none, go := gotoGo 1 }
      | 1 => { (default : State) with label := ⟨1, true⟩, action := .save 1, go := gotoGo 2 }
      | 2 => { (default : State) with label := ⟨2, true⟩, action := .accept [⟨3, tcid0⟩, ⟨4, tcid0⟩] }
      | 3 => { (default : State) with label := ⟨3, true⟩, action := .rule 0 }
      | _ => { (default : State) with label := ⟨4, true⟩, action := .rule 1 }
    states := [0, 1, 2, 3, 4]
    tags := fun u => { (default : Tag) with name := if u = 0 then "x" else "y" }
    rules := fun r => if r = 1 then { (default : Rule) with htag := 2 } else default
    accepts := 2
    initialLabel := ⟨5, false⟩ }

theorem backtrackDfa_lexRun : LexRun default default backtrackDfa where
  model := rfl
  enough := ⟨rfl, fun h => by cases h⟩
  labels := by decide
  initial := by decide
  dispatch := by
    intro s hs hc
    simp only [backtrackDfa, List.mem_cons, List.mem_singleton, List.not_mem_nil, or_false] at hs
    rcases hs with rfl | rfl | rfl | rfl | rfl <;> trivial
  targets := by decide
  noTable := rfl
  accepts := by
    intro s hs acc ha
    simp only [backtrackDfa, List.mem_cons, List.mem_singleton, List.not_mem_nil, or_false] at hs
    rcases hs with rfl | rfl | rfl | rfl | rfl <;> cases ha
    decide

theorem backtrack_lexRun : ∃ m', lexRun default backtrackDfa default 3 0 startMem = some (4, m') := by
  have hgo : (backtrackDfa.go 0).tags = tcid0 ∧ (backtrackDfa.go 1).tags = tcid0 := ⟨rfl, rfl⟩
  obtain ⟨m2, h2, hacc⟩ : ∃ m2, lexRun default backtrackDfa default 2 0 startMem = some (2, m2) ∧
      m2.get .yyaccept = some 1 := ⟨_, rfl, by simp only [jumpMem, preMem, hgo.1, hgo.2, runTags_tcid0]; rfl⟩
  have h3 : lexStep default backtrackDfa default 2 m2 =
      some (4, runTags default backtrackDfa default tcid0 (restoreMem m2)) := by
    show Option.map _ (acceptAlt [⟨3, tcid0⟩, ⟨4, tcid0⟩] m2) = _
    rw [acceptAlt, if_neg (by decide), hacc]
    rfl
  exact ⟨_, by rw [lexRun_add 2 1, h2]; simp only [Option.bind, lexRun, h3]; rfl⟩

theorem runGoto_lexRun_backtrack :
    ∃ m', lexRun default backtrackDfa default 3 0 startMem = some (4, m') ∧ ∃ k, ∀ fuel,
      runGoto default (genDfaAsBlocksWithLabels default backtrackDfa ++ []) (fuel + k)
          (codeFrom default backtrackDfa [] 0) startMem =
        runGoto default (genDfaAsBlocksWithLabels default backtrackDfa ++ []) fuel
          (codeFrom default backtrackDfa [] 4) m' :=
  let ⟨_, h⟩ := backtrack_lexRun
  ⟨_, h, runGoto_lexRun backtrackDfa_lexRun [] 3 (by decide) h⟩

end Re2cCodegen.Program
