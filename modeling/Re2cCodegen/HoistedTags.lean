import Re2cCodegen.States

/-! The tag commands hoisted out of the transitions of a state (`s->go.tags`): every run through
the code of the state applies them once, and before the fill label that a rematch returns to. -/

namespace Re2cCodegen.HoistedTags

open Re2cCodegen.Options Re2cCodegen.Dfa Re2cCodegen.Output Re2cCodegen.TagActions
  Re2cCodegen.Transitions Re2cCodegen.Dispatch Re2cCodegen.States

def isTransfer : Code → Bool
  | .goto _ | .gotoTable .. | .cont _ | .tailcall .. | .abort => true
  | _ => false

mutual

def stmtRuns : Code → List (List Code × Bool)
  | .ifte c t e => (stmtsRuns t ++ stmtsRuns e).map fun r => (.ifte c [] [] :: r.1, r.2)
  | .branches bs => branchesRuns bs
  | .switch _ cs => casesRuns cs ++ if cs.any (·.1 = .dflt) then [] else [([], false)]
  | .block b | .loop b => stmtsRuns b
  | c => [([c], isTransfer c)]

def stmtsRuns : List Code → List (List Code × Bool)
  | [] => [([], false)]
  | c :: cs => (stmtRuns c).flatMap fun r =>
    if r.2 then [r] else (stmtsRuns cs).map fun r' => (r.1 ++ r'.1, r'.2)

def branchesRuns : List (Option Cond × List Code) → List (List Code × Bool)
  | [] => [([], false)]
  | (none, body) :: _ => stmtsRuns body
  | (some c, body) :: bs =>
    (stmtsRuns body ++ branchesRuns bs).map fun r => (.ifte c [] [] :: r.1, r.2)

def casesRuns : List (CaseLbl × List Code) → List (List Code × Bool)
  | [] => []
  | (_, body) :: cs => stmtsRuns body ++ casesRuns cs

end

def Writes (w cs : List Code) : Prop := ∀ r ∈ stmtsRuns cs, r.1.filter writesTag = w

def FallsThrough (cs : List Code) : Prop := ∀ r ∈ stmtsRuns cs, r.2 = false

def flat (c : Code) : Bool := match c with
  | .ifte .. | .branches _ | .switch .. | .block _ | .loop _ => false
  | _ => true

def quietStmt (c : Code) : Bool := flat c && !writesTag c

def inert (c : Code) : Bool := c.straight && !writesTag c

section Runs

variable {xs ys : List Code} {w w' : List Code}

theorem stmtRuns_flat {c : Code} (h : flat c = true) : stmtRuns c = [([c], isTransfer c)] := by
  cases c <;> first | rfl | cases h

theorem mem_stmtsRuns_append {r : List Code × Bool} :
    r ∈ stmtsRuns (xs ++ ys) ↔ (r ∈ stmtsRuns xs ∧ r.2 = true) ∨
      ∃ a ∈ stmtsRuns xs, a.2 = false ∧ ∃ b ∈ stmtsRuns ys, r = (a.1 ++ b.1, b.2) := by
  induction xs generalizing r with
  | nil =>
    simp only [List.nil_append, stmtsRuns, List.mem_singleton]
    constructor
    · exact fun h => .inr ⟨_, rfl, rfl, r, h, by simp⟩
    · rintro (⟨rfl, h⟩ | ⟨a, rfl, -, b, hb, rfl⟩)
      · cases h
      · simpa using hb
  | cons x xs ih =>
    simp only [List.cons_append, stmtsRuns, List.mem_flatMap]
    constructor
    · rintro ⟨a, ha, hr⟩
      cases h : a.2
      · simp only [h, Bool.false_eq_true, if_false, List.mem_map] at hr
        obtain ⟨b, hb, rfl⟩ := hr
        rcases ih.1 hb with ⟨hb, hb2⟩ | ⟨a', ha', ha'2, b', hb', rfl⟩
        · refine .inl ⟨⟨a, ha, ?_⟩, hb2⟩
          simp only [h, Bool.false_eq_true, if_false, List.mem_map]
          exact ⟨b, hb, rfl⟩
        · refine .inr ⟨(a.1 ++ a'.1, false), ⟨a, ha, ?_⟩, rfl, b', hb', by simp⟩
          simp only [h, Bool.false_eq_true, if_false, List.mem_map]
          exact ⟨a', ha', by rw [ha'2]⟩
      · simp only [h, if_true, List.mem_singleton] at hr
        subst hr
        exact .inl ⟨⟨r, ha, by simp [h]⟩, h⟩
    · rintro (⟨⟨a, ha, hr⟩, hr2⟩ | ⟨a, ⟨a0, ha0, ha⟩, ha2, b, hb, rfl⟩)
      · refine ⟨a, ha, ?_⟩
        cases h : a.2
        · simp only [h, Bool.false_eq_true, if_false, List.mem_map] at hr ⊢
          obtain ⟨b, hb, rfl⟩ := hr
          exact ⟨b, ih.2 (.inl ⟨hb, hr2⟩), rfl⟩
        · simpa only [h, if_true] using hr
      · refine ⟨a0, ha0, ?_⟩
        cases h : a0.2
        · simp only [h, Bool.false_eq_true, if_false, List.mem_map] at ha ⊢
          obtain ⟨a', ha', rfl⟩ := ha
          exact ⟨(a'.1 ++ b.1, b.2), ih.2 (.inr ⟨a', ha', ha2, b, hb, rfl⟩), by simp⟩
        · simp only [h, if_true, List.mem_singleton] at ha
          subst ha
          cases h.symm.trans ha2

theorem Writes.nil : Writes [] [] := by simp [Writes, stmtsRuns]

theorem FallsThrough.nil : FallsThrough [] := by simp [FallsThrough, stmtsRuns]

theorem Writes.append (hx : Writes w xs) (hf : FallsThrough xs) (hy : Writes w' ys) :
    Writes (w ++ w') (xs ++ ys) := fun r hr => by
  rcases mem_stmtsRuns_append.1 hr with ⟨ha, h2⟩ | ⟨a, ha, -, b, hb, rfl⟩
  · cases (hf r ha).symm.trans h2
  · rw [List.filter_append, hx a ha, hy b hb]

theorem Writes.append_nil (hx : Writes w xs) (hy : Writes [] ys) : Writes w (xs ++ ys) :=
  fun r hr => by
  rcases mem_stmtsRuns_append.1 hr with ⟨ha, -⟩ | ⟨a, ha, -, b, hb, rfl⟩
  · exact hx r ha
  · rw [List.filter_append, hx a ha, hy b hb, List.append_nil]

theorem FallsThrough.append (hx : FallsThrough xs) (hy : FallsThrough ys) :
    FallsThrough (xs ++ ys) := fun r hr => by
  rcases mem_stmtsRuns_append.1 hr with ⟨ha, -⟩ | ⟨a, ha, -, b, hb, rfl⟩
  · exact hx r ha
  · exact hy b hb

theorem stmtsRuns_singleton (c : Code) : stmtsRuns [c] = stmtRuns c := by
  have h : (fun r : List Code × Bool => if r.2 then [r] else [(r.1 ++ [], false)]) = fun r => [r] := by
    funext ⟨a, b⟩
    cases b <;> simp
  simp only [stmtsRuns, List.map_cons, List.map_nil, h, List.flatMap_singleton']

theorem stmtRuns_straight {c : Code} (h : c.straight = true) : stmtRuns c = [([c], false)] := by
  cases c <;> first | rfl | cases h

theorem stmtsRuns_straight {cs : List Code} (h : ∀ c ∈ cs, c.straight = true) :
    stmtsRuns cs = [(cs, false)] := by
  induction cs with
  | nil => rfl
  | cons c cs ih =>
    rw [stmtsRuns, stmtRuns_straight (h c (.head _)), ih fun c' hc' => h c' (.tail _ hc')]
    rfl

theorem writes_straight {cs : List Code} (h : ∀ c ∈ cs, c.straight = true) :
    Writes (cs.filter writesTag) cs ∧ FallsThrough cs := by
  simp [Writes, FallsThrough, stmtsRuns_straight h]

theorem writes_quiet {cs : List Code} (h : cs.all quietStmt = true) : Writes [] cs := by
  induction cs with
  | nil => exact .nil
  | cons c cs ih =>
    simp only [List.all_cons, quietStmt, Bool.and_eq_true, Bool.not_eq_true'] at h
    have h1 : Writes [] [c] := by
      simp [Writes, stmtsRuns_singleton, stmtRuns_flat h.1.1, h.1.2]
    exact h1.append_nil (ih h.2)

theorem filter_test_cons (c : Cond) (l : List Code) :
    (Code.ifte c [] [] :: l).filter writesTag = l.filter writesTag :=
  List.filter_cons_of_neg Bool.false_ne_true

theorem writes_inert {cs : List Code} (h : cs.all inert = true) :
    Writes [] cs ∧ FallsThrough cs := by
  have h' : ∀ c ∈ cs, c.straight = true ∧ writesTag c = false := by
    simpa [inert] using List.all_eq_true.1 h
  obtain ⟨hw, hf⟩ := writes_straight fun c hc => (h' c hc).1
  rw [List.filter_eq_nil_iff.2 fun c hc => by simp [(h' c hc).2]] at hw
  exact ⟨hw, hf⟩

theorem Writes.flatMap {α : Type} {l : List α} {f : α → List Code} (h : ∀ x ∈ l, Writes [] (f x)) :
    Writes [] (l.flatMap f) := by
  induction l with
  | nil => exact .nil
  | cons x l ih => exact (h x (.head _)).append_nil (ih fun y hy => h y (.tail _ hy))

theorem stmtsRuns_ifte (c : Cond) (t e : List Code) : stmtsRuns [.ifte c t e] =
    (stmtsRuns t ++ stmtsRuns e).map fun r => (.ifte c [] [] :: r.1, r.2) := by
  rw [stmtsRuns_singleton]
  rfl

theorem Writes.ifte {c : Cond} {t e : List Code} (ht : Writes w t) (he : Writes w e) :
    Writes w [.ifte c t e] := by
  simp only [Writes, stmtsRuns_ifte, List.mem_map, List.mem_append]
  rintro _ ⟨r, hr | hr, rfl⟩ <;> rw [filter_test_cons]
  exacts [ht r hr, he r hr]

theorem FallsThrough.ifte {c : Cond} {t e : List Code} (ht : FallsThrough t) (he : FallsThrough e) :
    FallsThrough [.ifte c t e] := by
  simp only [FallsThrough, stmtsRuns_ifte, List.mem_map, List.mem_append]
  rintro _ ⟨r, hr | hr, rfl⟩
  · exact ht r hr
  · exact he r hr

theorem Writes.branches {bs : List (Option Cond × List Code)} (h : ∀ b ∈ bs, Writes [] b.2) :
    Writes [] [.branches bs] := by
  rw [Writes, stmtsRuns_singleton]
  show ∀ r ∈ branchesRuns bs, _
  induction bs with
  | nil => simp [branchesRuns]
  | cons b bs ih =>
    obtain ⟨_ | c, body⟩ := b
    · exact h _ (.head _)
    · simp only [branchesRuns, List.mem_map, List.mem_append]
      rintro _ ⟨r, hr | hr, rfl⟩ <;> rw [filter_test_cons]
      exacts [h _ (.head _) r hr, ih (fun b hb => h b (.tail _ hb)) r hr]

theorem Writes.switch {e : Expr} {cs : List (CaseLbl × List Code)} (h : ∀ x ∈ cs, Writes [] x.2) :
    Writes [] [.switch e cs] := by
  have hcases : ∀ r ∈ casesRuns cs, r.1.filter writesTag = [] := by
    induction cs with
    | nil => simp [casesRuns]
    | cons x cs ih =>
      simp only [casesRuns, List.mem_append]
      rintro r (hr | hr)
      · exact h x (.head _) r hr
      · exact ih (fun y hy => h y (.tail _ hy)) r hr
  rw [Writes, stmtsRuns_singleton]
  show ∀ r ∈ casesRuns cs ++ _, _
  rintro r hr
  rcases List.mem_append.1 hr with hr | hr
  · exact hcases r hr
  · split at hr
    · cases hr
    · rw [List.mem_singleton.1 hr]
      rfl

theorem Writes.block {b : List Code} (h : Writes w b) : Writes w [.block b] := by
  rwa [Writes, stmtsRuns_singleton]

end Runs

/-- `consume` of the DFA, which is not under src/. Modelled from the spec: the actions that
read a character, those of the action emitter that end in a peek (MATCH, INITIAL, SAVE). -/
def consume (dfa : Adfa) (s : StateId) : Bool :=
  match dfa.action s with
  | .match | .initial _ | .save _ => true
  | _ => false

def goIfJumps : CodeGoIf → List CodeJump
  | .binary _ t e => goIfJumps t ++ goIfJumps e
  | .linear bs => bs.map (·.jump)

def goSwIfJumps : CodeGoSwIf → List CodeJump
  | .switch sw => sw.cases.map (·.jump)
  | .ifs i => goIfJumps i

def goJumps : GoKind → List CodeJump
  | .dot sw => sw.cases.map (·.jump)
  | .switchIf g => goSwIfJumps g
  | .bitmap bm => (bm.hgo.map goSwIfJumps).getD [] ++ (bm.lgo.map goSwIfJumps).getD []
  | .cpgoto cp => (cp.hgo.map goSwIfJumps).getD []

section Transitions

variable (opts : Opts) (dfa : Adfa) (s : StateId)

theorem quiet_genIf {c : Cond} {t e : List Code} (ht : Writes [] t) (he : Writes [] e) :
    Writes [] (genIf opts c t e) := by
  unfold genIf
  split
  · exact ht.ifte he
  · exact (ht.ifte Writes.nil).append_nil he

theorem fallsThrough_genIf {c : Cond} {t e : List Code} (ht : FallsThrough t)
    (he : FallsThrough e) : FallsThrough (genIf opts c t e) := by
  unfold genIf
  split
  · exact ht.ifte he
  · exact (ht.ifte FallsThrough.nil).append he

theorem quiet_genTransition (j : CodeJump) (hj : j.tags = tcid0) :
    Writes [] (genTransition opts dfa j) := by
  refine writes_quiet ?_
  simp only [genTransition, hj, genSettags_tcid0, genContinueYyloop, List.nil_append, List.all_append]
  split_ifs <;> (try split) <;> rfl

theorem quiet_genFillFalllback (jump : Option CodeJump) (hs : (dfa.go s).tags ≠ tcid0) :
    Writes [] (genFillFalllback opts dfa s jump) := by
  refine writes_quiet ?_
  simp only [genFillFalllback, falltags, if_pos hs, genSettags_tcid0, genContinueYyloop,
    List.nil_append]
  split_ifs <;> (try split) <;> rfl

theorem quiet_genResume : Writes [] (genResume opts dfa s) := by
  refine writes_quiet ?_
  simp only [genResume, genContinueYyloop]
  split <;> (try split_ifs) <;> rfl

theorem quiet_genGotoAfterFill (jump : Option CodeJump) (hs : (dfa.go s).tags ≠ tcid0) :
    Writes [] (genGotoAfterFill opts dfa s jump) := by
  unfold genGotoAfterFill
  split
  · exact quiet_genIf opts (quiet_genFillFalllback opts dfa s jump hs) (quiet_genResume opts dfa s)
  · exact quiet_genResume opts dfa s

theorem quiet_fillStmts (jump : Option CodeJump) (hs : (dfa.go s).tags ≠ tcid0) :
    Writes [] (fillStmts opts dfa s jump) := by
  have hfill : Writes [] [.fill] := writes_quiet rfl
  unfold fillStmts
  dsimp only
  split
  · refine Writes.append_nil (writes_quiet ?_) ?_
    · split <;> rfl
    · split
      · refine Writes.append_nil ?_ (quiet_genIf opts (quiet_genGotoAfterFill opts dfa s jump hs)
          (quiet_genFillFalllback opts dfa s jump hs))
        split
        · exact hfill
        · exact .nil
      · exact hfill
  · split
    · exact quiet_genFillFalllback opts dfa s jump hs
    · exact .nil

theorem quiet_genFill (tail : List Code) (jump : Option CodeJump) (hs : (dfa.go s).tags ≠ tcid0)
    (ht : Writes [] tail) : Writes [] (genFill opts dfa tail s jump) := by
  unfold genFill
  dsimp only
  split
  · exact quiet_genIf opts (quiet_fillStmts opts dfa s jump hs) ht
  · exact (quiet_fillStmts opts dfa s jump hs).append_nil ht

theorem quiet_genGoto (j : CodeJump) (hs : (dfa.go s).tags ≠ tcid0) (hj : j.tags = tcid0) :
    Writes [] (genGoto opts dfa (some s) j) := by
  cases h : j.eof
  · simpa only [genGoto, h] using quiet_genTransition opts dfa j hj
  · simpa only [genGoto, h] using
      quiet_genFill opts dfa s _ _ hs (quiet_genTransition opts dfa j hj)

end Transitions

section Dispatch

variable (opts : Opts) (dfa : Adfa) {s : StateId}

theorem quiet_genGosw (go : CodeGoSw) (hs : (dfa.go s).tags ≠ tcid0)
    (h : ∀ j ∈ go.cases.map (·.jump), j.tags = tcid0) : Writes [] (genGosw opts dfa go s) := by
  obtain ⟨cs, heq, hcs⟩ := genGosw_arms opts dfa s go
  rw [heq]
  refine Writes.switch fun x hx => ?_
  obtain ⟨c, hc, hx⟩ := hcs x hx
  rw [hx]
  exact quiet_genGoto opts dfa s _ hs (h _ (List.mem_map_of_mem _ hc))

theorem quiet_genGoifl (bs : List Branch) (hs : (dfa.go s).tags ≠ tcid0)
    (h : ∀ b ∈ bs, b.jump.tags = tcid0) : Writes [] (genGoifl opts dfa s bs) := by
  unfold genGoifl
  split
  · refine Writes.flatMap fun b hb => ?_
    split
    · exact (quiet_genGoto opts dfa s _ hs (h b hb)).ifte .nil
    · exact quiet_genGoto opts dfa s _ hs (h b hb)
  · split
    · exact quiet_genGoto opts dfa s _ hs (h _ (.head _))
    · refine Writes.branches fun x hx => ?_
      obtain ⟨b, hb, rfl⟩ := List.mem_map.1 hx
      exact quiet_genGoto opts dfa s _ hs (h b hb)

theorem quiet_genGoif (hs : (dfa.go s).tags ≠ tcid0) :
    ∀ go : CodeGoIf, (∀ j ∈ goIfJumps go, j.tags = tcid0) → Writes [] (genGoif opts dfa s go)
  | .binary _ t e, h => by
    rw [genGoif]
    exact (quiet_genGoif hs t fun j hj => h j (List.mem_append_left _ hj)).ifte
      (quiet_genGoif hs e fun j hj => h j (List.mem_append_right _ hj))
  | .linear bs, h => by
    rw [genGoif]
    exact quiet_genGoifl opts dfa bs hs fun b hb => h _ (List.mem_map_of_mem _ hb)

theorem quiet_genGoswif (go : CodeGoSwIf) (hs : (dfa.go s).tags ≠ tcid0)
    (h : ∀ j ∈ goSwIfJumps go, j.tags = tcid0) : Writes [] (genGoswif opts dfa s go) := by
  cases go with
  | switch sw => exact quiet_genGosw opts dfa sw hs h
  | ifs i => exact quiet_genGoif opts dfa hs i h

theorem quiet_genGobm (go : CodeGoBm) (hs : (dfa.go s).tags ≠ tcid0)
    (h : ∀ j ∈ goJumps (.bitmap go), j.tags = tcid0) : Writes [] (genGobm opts dfa go s) := by
  have hgoto := quiet_genGoto opts dfa s ⟨go.state, tcid0, false, false, false⟩ hs rfl
  unfold genGobm
  refine Writes.append_nil ?_ ?_
  · split
    · refine Writes.branches ?_
      simp only [List.forall_mem_cons]
      refine ⟨quiet_genGoswif opts dfa _ hs fun j hj => h j ?_, hgoto, fun _ h => nomatch h⟩
      simp_all [goJumps]
    · exact hgoto.ifte .nil
  · split
    · refine quiet_genGoswif opts dfa _ hs fun j hj => h j ?_
      simp_all [goJumps]
    · exact .nil

theorem quiet_genGocp (go : CodeGoCp) (hs : (dfa.go s).tags ≠ tcid0)
    (h : ∀ j ∈ goJumps (.cpgoto go), j.tags = tcid0) : Writes [] (genGocp opts dfa go s) := by
  have htable : Writes [] (genGocpTable dfa go.table ++ [.gotoTable .yytarget (.var .yych)]) :=
    writes_quiet rfl
  unfold genGocp
  split
  · refine Writes.ifte (quiet_genGoswif opts dfa _ hs fun j hj => h j ?_) htable
    simp_all [goJumps]
  · exact htable.block

theorem genGodot_inert (go : CodeGoSw) : (genGodot dfa go s).all inert = true := by
  unfold genGodot
  split
  · rfl
  · exact List.all_eq_true.2 fun c hc => by obtain ⟨_, -, rfl⟩ := List.mem_map.1 hc; rfl

end Dispatch

section States

variable (opts : Opts) (dfa : Adfa) (s : StateId)

theorem emitState_inert : (emitState opts dfa s).all inert = true := by
  unfold emitState genDebug
  dsimp only
  split_ifs <;> (try split) <;> rfl

theorem emitAction_consume (h : consume dfa s = true) :
    ∃ p q, emitAction opts dfa s = p ++ genFillAndLabel opts dfa s ++ q ∧
      p.all inert = true ∧ q.all inert = true := by
  have hpeek : (genPeek dfa s).all inert = true := by
    unfold genPeek
    split <;> rfl
  cases ha : dfa.action s with
  | «match» =>
    simp only [emitAction, ha]
    exact ⟨_, _, rfl, by split <;> rfl, hpeek⟩
  | initial save =>
    simp only [emitAction, ha]
    refine ⟨(if (dfa.label s).used && 1 < dfa.accepts && save.isSome then
        [.assign [.yyaccept] (.num (save.getD 0))] else []) ++
      (if (dfa.label s).used && !opts.eagerSkip then [.skip] else []) ++
      [.label (.num dfa.initialLabel.index)],
      (if save.isSome then [.backup] else []) ++ genPeek dfa s ++ genDebug opts dfa.initialLabel,
      by simp only [List.append_assoc], ?_, ?_⟩ <;>
      simp only [List.all_append, hpeek, genDebug, Bool.and_true, Bool.true_and] <;> split_ifs <;> rfl
  | save save =>
    simp only [emitAction, ha]
    refine ⟨(if 1 < dfa.accepts then [.assign [.yyaccept] (.num save)] else []) ++
      (if !opts.eagerSkip then [.skip] else []) ++ [.backup], genPeek dfa s,
      by simp only [List.append_assoc], ?_, hpeek⟩
    simp only [List.all_append]
    split_ifs <;> rfl
  | move | accept _ | rule _ => simp [consume, ha] at h

theorem fillStmts_inert (heof : opts.fillEof = none) (jump : Option CodeJump) :
    (fillStmts opts dfa s jump).all inert = true := by
  simp only [fillStmts, heof, Option.isSome_none, Bool.false_and, Bool.false_eq_true, if_false]
  split_ifs <;> rfl

theorem genFill_noEof (heof : opts.fillEof = none) (jump : Option CodeJump) :
    Writes [] (genFill opts dfa [] s jump) ∧ FallsThrough (genFill opts dfa [] s jump) := by
  obtain ⟨hw, hf⟩ := writes_inert (fillStmts_inert opts dfa s heof jump)
  unfold genFill
  dsimp only
  split
  · exact ⟨quiet_genIf opts hw .nil, fallsThrough_genIf opts hf .nil⟩
  · rw [List.append_nil]
    exact ⟨hw, hf⟩

theorem genFillAndLabel_parts :
    ∃ f l, genFillAndLabel opts dfa s =
        f ++ (if opts.fillEof.isSome then genSettags opts dfa (dfa.go s).tags else []) ++ l ∧
      (opts.fillEof = none → Writes [] f ∧ FallsThrough f) ∧ (opts.fillEof.isSome → f = []) ∧
      l.all inert = true ∧
      (opts.codeModel = .gotoLabel → ∀ k, (dfa.state s).fillLabel = some k → l = [.label (.fill k)]) := by
  refine ⟨_, _, rfl, fun heof => ?_, fun heof => ?_, ?_, fun hm k hk => ?_⟩
  · split
    · exact genFill_noEof opts dfa s heof none
    · exact ⟨.nil, .nil⟩
  · simp [Option.isSome_iff_ne_none.1 heof]
  · split <;> (try split) <;> rfl
  · simp [hk, hm]

variable {opts dfa s}

theorem genGo_code (hk : ∀ g, (dfa.go s).kind ≠ .dot g) (hs : (dfa.go s).tags ≠ tcid0)
    (hj : ∀ j ∈ goJumps (dfa.go s).kind, j.tags = tcid0) :
    ∃ d, Writes [] d ∧ genGo opts dfa (dfa.go s) s =
      (if opts.fillEof.isNone then genSettags opts dfa (dfa.go s).tags else []) ++ d := by
  have hskip : Writes [] (if (dfa.go s).skip then [.skip] else []) := by
    split
    · exact writes_quiet rfl
    · exact .nil
  unfold genGo
  cases hkind : (dfa.go s).kind with
  | dot g => exact absurd hkind (hk g)
  | switchIf g =>
    rw [hkind] at hj
    exact ⟨_, hskip.append_nil (quiet_genGoswif opts dfa g hs hj), List.append_assoc _ _ _⟩
  | bitmap g =>
    rw [hkind] at hj
    exact ⟨_, hskip.append_nil (quiet_genGobm opts dfa g hs hj), List.append_assoc _ _ _⟩
  | cpgoto g =>
    rw [hkind] at hj
    exact ⟨_, hskip.append_nil (quiet_genGocp opts dfa g hs hj), List.append_assoc _ _ _⟩

theorem quiet_genGo_eof (heof : opts.fillEof.isSome = true) (hs : (dfa.go s).tags ≠ tcid0)
    (hj : ∀ j ∈ goJumps (dfa.go s).kind, j.tags = tcid0) :
    Writes [] (genGo opts dfa (dfa.go s) s) := by
  by_cases hk : ∀ g, (dfa.go s).kind ≠ .dot g
  · obtain ⟨d, hd, heq⟩ := genGo_code hk hs hj
    rwa [heq, if_neg (by simpa [Option.isNone_iff_eq_none, Option.isSome_iff_ne_none] using heof)]
  · obtain ⟨g, hg⟩ := not_forall_not.1 hk
    simpa only [genGo, hg] using (writes_inert (genGodot_inert dfa g)).1

theorem fallsThrough_stateCode_dot (hc : consume dfa s = true) (heof : opts.fillEof = none)
    {g : CodeGoSw} (hg : (dfa.go s).kind = .dot g) : FallsThrough (stateCode opts dfa s) := by
  obtain ⟨p, q, hemit, hp, hq⟩ := emitAction_consume opts dfa s hc
  obtain ⟨f, l, hfl, hf, -, hl, -⟩ := genFillAndLabel_parts opts dfa s
  have hgo : FallsThrough (genGo opts dfa (dfa.go s) s) := by
    simpa only [genGo, hg] using (writes_inert (genGodot_inert dfa g)).2
  rw [stateCode, hemit, hfl, heof]
  exact ((writes_inert (emitState_inert opts dfa s)).2.append
    ((((writes_inert hp).2.append ((hf heof).2.append .nil |>.append (writes_inert hl).2)).append
      (writes_inert hq).2))).append hgo

theorem stateCode_split (hc : consume dfa s = true) (hs : (dfa.go s).tags ≠ tcid0)
    (hj : ∀ j ∈ goJumps (dfa.go s).kind, j.tags = tcid0)
    (hk : opts.fillEof.isSome = true ∨ ∀ g, (dfa.go s).kind ≠ .dot g) :
    ∃ pre post, stateCode opts dfa s = pre ++ genSettags opts dfa (dfa.go s).tags ++ post ∧
      Writes [] pre ∧ FallsThrough pre ∧ Writes [] post ∧
      (opts.fillEof.isSome = true → opts.codeModel = .gotoLabel → ∀ k,
        (dfa.state s).fillLabel = some k → post.head? = some (.label (.fill k))) := by
  obtain ⟨p, q, hemit, hp, hq⟩ := emitAction_consume opts dfa s hc
  obtain ⟨f, l, hfl, hf, hf0, hl, hlk⟩ := genFillAndLabel_parts opts dfa s
  have hst := writes_inert (emitState_inert opts dfa s)
  have hp' := writes_inert hp
  have hq' := writes_inert hq
  have hl' := writes_inert hl
  cases hfe : opts.fillEof with
  | none =>
    obtain ⟨d, hd, hgo⟩ := genGo_code (hk.resolve_left (by simp [hfe])) hs hj
    refine ⟨emitState opts dfa s ++ p ++ f ++ l ++ q, d, ?_,
      (((hst.1.append_nil hp'.1).append_nil (hf hfe).1).append_nil hl'.1).append_nil hq'.1,
      (((hst.2.append hp'.2).append (hf hfe).2).append hl'.2).append hq'.2, hd,
      fun h => by simp [hfe] at h⟩
    rw [stateCode, hemit, hfl, hgo]
    simp only [hfe, Option.isSome_none, Option.isNone_none, Bool.false_eq_true, if_false, if_true,
      List.append_nil, List.append_assoc]
  | some e =>
    have hf0' := hf0 (by simp [hfe])
    refine ⟨emitState opts dfa s ++ p, l ++ q ++ genGo opts dfa (dfa.go s) s, ?_,
      hst.1.append_nil hp'.1, hst.2.append hp'.2,
      (hl'.1.append_nil hq'.1).append_nil (quiet_genGo_eof (by simp [hfe]) hs hj),
      fun _ hm k hk => by rw [hlk hm k hk]; rfl⟩
    rw [stateCode, hemit, hfl, hf0', hfe]
    simp only [Option.isSome_some, if_true, List.nil_append, List.append_assoc]

end States

theorem hoisted_tags_applied_once (opts : Opts) (dfa : Adfa) (s : StateId)
    (hcheck : consume dfa s = true ∨ (dfa.go s).tags = tcid0) (hs : (dfa.go s).tags ≠ tcid0)
    (hj : ∀ j ∈ goJumps (dfa.go s).kind, j.tags = tcid0) :
    (∀ r ∈ stmtsRuns (stateCode opts dfa s), (r.2 = true ∨ ∀ g, (dfa.go s).kind ≠ .dot g) →
      r.1.filter writesTag = genSettags opts dfa (dfa.go s).tags) ∧
    (opts.fillEof.isSome = true → opts.codeModel = .gotoLabel → ∀ k,
      (dfa.state s).fillLabel = some k →
      ∃ pre post, stateCode opts dfa s =
          pre ++ genSettags opts dfa (dfa.go s).tags ++ .label (.fill k) :: post ∧
        Writes [] pre ∧ FallsThrough pre ∧ Writes [] (.label (.fill k) :: post)) := by
  have hc := hcheck.resolve_right hs
  have hT : Writes (genSettags opts dfa (dfa.go s).tags) (genSettags opts dfa (dfa.go s).tags) ∧
      FallsThrough (genSettags opts dfa (dfa.go s).tags) := by
    have := writes_straight (genSettags_straight opts dfa (dfa.go s).tags)
    rwa [List.filter_eq_self.2 fun c hc => (genSettags_tagStmt opts dfa _ c hc).2] at this
  refine ⟨fun r hr hr2 => ?_, fun heof hm k hk => ?_⟩
  · by_cases hcode : opts.fillEof.isSome = true ∨ ∀ g, (dfa.go s).kind ≠ .dot g
    · obtain ⟨pre, post, heq, hpre, hfpre, hpost, -⟩ := stateCode_split hc hs hj hcode
      rw [heq] at hr
      exact (hpre.append hfpre hT.1).append_nil hpost r hr
    · obtain ⟨heof, hdot⟩ := not_or.1 hcode
      obtain ⟨g, hg⟩ := not_forall_not.1 hdot
      have hnone : opts.fillEof = none := by simpa [Option.isSome_iff_ne_none] using heof
      rcases hr2 with hr2 | hr2
      · cases (fallsThrough_stateCode_dot hc hnone hg r hr).symm.trans hr2
      · exact absurd hg (hr2 g)
  · obtain ⟨pre, post, heq, hpre, hfpre, hpost, hlabel⟩ := stateCode_split hc hs hj (.inl heof)
    cases post with
    | nil => cases hlabel heof hm k hk
    | cons c post =>
      obtain rfl : c = .label (.fill k) := Option.some.inj (hlabel heof hm k hk)
      exact ⟨pre, post, heq, hpre, hfpre, hpost⟩

/-- Goto/label mode with `YYFILL`, its check, and an end-of-input rule. -/
def eofGotoOpts : Opts :=
  { (default : Opts) with
    codeModel := .gotoLabel, fillEnable := true, fillCheck := true, fillEof := some 0 }

/-- A MATCH state with hoisted tags, one transition that checks `YYFILL`, and a fallback with
tags of its own. -/
def hoistDfa : Adfa :=
  { (default : Adfa) with
    state := fun _ => { (default : State) with
      label := ⟨0, true⟩, action := .match, fillLabel := some 0,
      go := { kind := .switchIf (.ifs (.linear [⟨none, ⟨0, tcid0, false, false, true⟩⟩])),
              span := [⟨256, 0⟩], tags := 1, skip := false } },
    tcpool := fun t => if t = 1 then [⟨1, 2, []⟩] else [],
    tcpool_tcid0 := rfl,
    fallback := fun s => (s, 1) }

theorem hoisted_tags_applied_once_eof :
    (consume hoistDfa 0 = true ∨ (hoistDfa.go 0).tags = tcid0) ∧ (hoistDfa.go 0).tags ≠ tcid0 ∧
    (∀ j ∈ goJumps (hoistDfa.go 0).kind, j.tags = tcid0) ∧
    ((∀ r ∈ stmtsRuns (stateCode eofGotoOpts hoistDfa 0),
        (r.2 = true ∨ ∀ g, (hoistDfa.go 0).kind ≠ .dot g) →
        r.1.filter writesTag = genSettags eofGotoOpts hoistDfa (hoistDfa.go 0).tags) ∧
      (eofGotoOpts.fillEof.isSome = true → eofGotoOpts.codeModel = .gotoLabel → ∀ k,
        (hoistDfa.state 0).fillLabel = some k →
        ∃ pre post, stateCode eofGotoOpts hoistDfa 0 =
            pre ++ genSettags eofGotoOpts hoistDfa (hoistDfa.go 0).tags ++ .label (.fill k) :: post ∧
          Writes [] pre ∧ FallsThrough pre ∧ Writes [] (.label (.fill k) :: post))) :=
  have h1 : consume hoistDfa 0 = true ∨ (hoistDfa.go 0).tags = tcid0 := .inl rfl
  have h2 : (hoistDfa.go 0).tags ≠ tcid0 := by decide
  have h3 : ∀ j ∈ goJumps (hoistDfa.go 0).kind, j.tags = tcid0 := by decide
  ⟨h1, h2, h3, hoisted_tags_applied_once eofGotoOpts hoistDfa 0 h1 h2 h3⟩

end Re2cCodegen.HoistedTags
