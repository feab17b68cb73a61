import Mathlib.Data.List.Chain
import Mathlib.Data.List.GetD
import Re2cCodegen.Layout
import Re2cCodegen.HoistedTags

/-! The character `yych` in rec/func mode, where it lives in the parameters of the state
functions: a read of it must follow a `YYPEEK` of the same function or be of the parameter,
and a tail call must pass it exactly to the functions that take it. -/

namespace Re2cCodegen.RecFunc

open Re2cCodegen.Options Re2cCodegen.Dfa Re2cCodegen.Output Re2cCodegen.TagActions
  Re2cCodegen.Transitions Re2cCodegen.Dispatch Re2cCodegen.Accept Re2cCodegen.FinalTags
  Re2cCodegen.States Re2cCodegen.Layout Re2cCodegen.HoistedTags

mutual

def stmtThreads (callee : Nat → Option Bool) (bound : Bool) : Code → Bool
  | .assign _ e | .stateSet e | .condSet e | .gotoTable _ e | .cont e => !e.readsYych || bound
  | .sub v _ | .shift (some v) _ _ | .restoreCtx (some v) => v != .yych || bound
  | .ifte c t e =>
    (!c.readsYych || bound) && stmtsThread callee bound t && stmtsThread callee bound e
  | .branches bs => branchesThread callee bound bs
  | .switch e cs => (!e.readsYych || bound) && casesThread callee bound cs
  | .block b | .loop b => stmtsThread callee bound b
  | .tailcall f y =>
    (!y || bound) && match f with
      | .state n => callee n == some y
      | _ => true
  | _ => true

/-- The statements in order: a `YYPEEK` binds `yych` for those after it. -/
def stmtsThread (callee : Nat → Option Bool) : Bool → List Code → Bool
  | _, [] => true
  | bound, c :: cs => stmtThreads callee bound c && stmtsThread callee (bound || c.isPeek) cs

def branchesThread (callee : Nat → Option Bool) (bound : Bool) :
    List (Option Cond × List Code) → Bool
  | [] => true
  | (c, body) :: bs =>
    (!(c.any Cond.readsYych) || bound) && stmtsThread callee bound body &&
      branchesThread callee bound bs

def casesThread (callee : Nat → Option Bool) (bound : Bool) : List (CaseLbl × List Code) → Bool
  | [] => true
  | (_, body) :: cs => stmtsThread callee bound body && casesThread callee bound cs

end

/-- Whether the function of the state labelled `n` takes `yych`: `need_yych_arg` of that state. -/
def calleeYych (dfa : Adfa) (n : Nat) : Option Bool :=
  (dfa.states.find? fun t => (dfa.label t).index == n).map (needYychArg dfa)

theorem not_or_bound {r b : Bool} (h : r = false ∨ b = true) : (!r || b) = true := by
  rcases h with rfl | rfl <;> simp

theorem stmtsThread_append (callee : Nat → Option Bool) (b : Bool) (xs ys : List Code) :
    stmtsThread callee b (xs ++ ys) =
      (stmtsThread callee b xs && stmtsThread callee (b || xs.any Code.isPeek) ys) := by
  induction xs generalizing b with
  | nil => simp [stmtsThread]
  | cons c cs ih => simp [stmtsThread, ih, Bool.or_assoc, Bool.and_assoc]

def Threads (callee : Nat → Option Bool) (bound : Bool) (cs : List Code) : Prop :=
  stmtsThread callee bound cs = true ∧ cs.any Code.isPeek = false

namespace Threads

variable {callee : Nat → Option Bool} {b : Bool}

theorem nil : Threads callee b [] := ⟨rfl, rfl⟩

theorem append {xs ys : List Code} (hx : Threads callee b xs) (hy : Threads callee b ys) :
    Threads callee b (xs ++ ys) := by
  refine ⟨?_, by simp [hx.2, hy.2]⟩
  rw [stmtsThread_append, hx.2, Bool.or_false, hx.1, hy.1]
  rfl

theorem flatMap {α : Type} {l : List α} {f : α → List Code} (h : ∀ x ∈ l, Threads callee b (f x)) :
    Threads callee b (l.flatMap f) := by
  induction l with
  | nil => exact nil
  | cons x xs ih =>
    rw [List.flatMap_cons]
    exact (h x (.head _)).append (ih fun y hy => h y (.tail _ hy))

theorem single {c : Code} (h : stmtThreads callee b c = true) (hp : c.isPeek = false) :
    Threads callee b [c] := by
  simp [Threads, stmtsThread, h, hp]

theorem ifte {c : Cond} {t e : List Code} (hc : c.readsYych = false ∨ b = true)
    (ht : Threads callee b t) (he : Threads callee b e) : Threads callee b [.ifte c t e] :=
  single (show ((!c.readsYych || b) && stmtsThread callee b t && stmtsThread callee b e) = true by
    rw [not_or_bound hc, ht.1, he.1]; rfl) rfl

theorem block {cs : List Code} (h : Threads callee b cs) : Threads callee b [.block cs] :=
  single h.1 rfl

theorem switch {e : Expr} {cs : List (CaseLbl × List Code)} (he : e.readsYych = false ∨ b = true)
    (h : ∀ x ∈ cs, Threads callee b x.2) : Threads callee b [.switch e cs] := by
  have hcs : casesThread callee b cs = true := by
    induction cs with
    | nil => rfl
    | cons x cs ih =>
      simp only [casesThread, (h x (.head _)).1, ih fun y hy => h y (.tail _ hy), Bool.and_self]
  exact single (show ((!e.readsYych || b) && casesThread callee b cs) = true by
    rw [not_or_bound he, hcs]; rfl) rfl

theorem branches {bs : List (Option Cond × List Code)}
    (h : ∀ x ∈ bs, (x.1.any Cond.readsYych = false ∨ b = true) ∧ Threads callee b x.2) :
    Threads callee b [.branches bs] := by
  have hbs : branchesThread callee b bs = true := by
    induction bs with
    | nil => rfl
    | cons x bs ih =>
      obtain ⟨c, body⟩ := x
      obtain ⟨hc, hx⟩ := h _ (.head _)
      show ((!(c.any Cond.readsYych) || b) && stmtsThread callee b body &&
        branchesThread callee b bs) = true
      rw [not_or_bound hc, hx.1, ih fun y hy => h y (.tail _ hy)]
      rfl
  exact single hbs rfl

theorem of_forall {cs : List Code} (h : ∀ c ∈ cs, stmtThreads callee b c = true ∧ c.isPeek = false) :
    Threads callee b cs := by
  induction cs with
  | nil => exact nil
  | cons c cs ih =>
    exact (single (c := c) (h c (.head _)).1 (h c (.head _)).2).append
      (ih fun c' hc' => h c' (.tail _ hc'))

theorem ite {p : Prop} [Decidable p] {xs ys : List Code} (hx : p → Threads callee b xs)
    (hy : ¬p → Threads callee b ys) : Threads callee b (if p then xs else ys) := by
  split
  · exact hx ‹_›
  · exact hy ‹_›

theorem optional {p : Prop} [Decidable p] {c : Code} (h : stmtThreads callee b c = true)
    (hp : c.isPeek = false) : Threads callee b (if p then [c] else []) :=
  .ite (fun _ => .single h hp) fun _ => .nil

theorem of_all {cs : List Code}
    (h : cs.all (fun c => stmtThreads callee b c && !c.isPeek) = true) : Threads callee b cs :=
  .of_forall fun c hc => by simpa using List.all_eq_true.1 h c hc

theorem seq {xs ys : List Code} (hx : Threads callee b xs) (hy : stmtsThread callee b ys = true) :
    stmtsThread callee b (xs ++ ys) = true := by
  rw [stmtsThread_append, hx.1, hx.2, Bool.or_false, hy]
  rfl

end Threads

theorem threads_of_tagStmt (callee : Nat → Option Bool) (b : Bool) {cs : List Code}
    (h : ∀ c ∈ cs, tagStmt c = true) : Threads callee b cs := by
  induction cs with
  | nil => exact Threads.nil
  | cons c cs ih =>
    have hc := h c (.head _)
    refine (Threads.single (c := c) ?_ ?_).append (ih fun c' hc' => h c' (.tail _ hc'))
    · cases c <;> simp only [tagStmt, reduceCtorEq, Bool.false_eq_true] at hc <;>
        first | rfl | exact not_or_bound (.inl (by simpa using hc))
    · cases c <;> simp only [tagStmt, reduceCtorEq, Bool.false_eq_true] at hc <;> rfl

/-! The statements of `gen_fintags` name tag variables, final slots, the cursor and the context
marker, never `yych`. -/

/-- The four lists of `gen_fintags` read `yych` only where it is bound and bind nothing, and the
base tag kept for the no-match value is not `yych`. -/
def finOpsThread (callee : Nat → Option Bool) (b : Bool) (ops : FinOps) : Bool :=
  (ops.varops ++ ops.fixops ++ ops.trailops ++ ops.fixpostops).all
      (fun c => stmtThreads callee b c && !c.isPeek) && ops.negtag.all (· != .yych)

section FinalTags

variable {callee : Nat → Option Bool} {b : Bool} (opts : Opts) (dfa : Adfa)

theorem finOpsThread_genFintag {ops : FinOps} (h : finOpsThread callee b ops = true) (t : Nat) :
    finOpsThread callee b (genFintag opts dfa ops t) = true := by
  have hs : ∀ k v, (genShift k (some (.fin v)) false).all
      (fun c => stmtThreads callee b c && !c.isPeek) = true := fun k v => by
    unfold genShift; split <;> rfl
  have hs' : ∀ k, (genShift k none false).all
      (fun c => stmtThreads callee b c && !c.isPeek) = true := fun k => by
    unfold genShift; split <;> rfl
  have ha : ∀ v vs, (genAssignManyToFirst (.fin v :: vs)).all
      (fun c => stmtThreads callee b c && !c.isPeek) = true := fun v vs => by
    cases vs <;> rfl
  have hif : ∀ v w k, (w != .yych) = true → stmtThreads callee b
      (.ifte (.cmp .ne (.var (.fin v)) (.var w)) (genShift k (some (.fin v)) false) []) = true := by
    intro v w k hw
    have hc : (Cond.cmp .ne (.var (.fin v)) (.var w)).readsYych = false := by
      simpa [Cond.readsYych, Expr.readsYych] using hw
    have hsh : Threads callee b (genShift k (some (.fin v)) false) := by
      unfold genShift
      split
      · exact .nil
      · exact .single (by rfl) (by rfl)
    show ((!(Cond.cmp .ne (.var (.fin v)) (.var w)).readsYych || b) &&
      stmtsThread callee b (genShift k (some (.fin v)) false) && stmtsThread callee b []) = true
    rw [hc, hsh.1]
    rfl
  have hmk : ∀ a b' c d n, finOpsThread callee b ⟨a, b', c, d, n⟩ =
      ((a ++ b' ++ c ++ d).all (fun c => stmtThreads callee b c && !c.isPeek) &&
        n.all (· != .yych)) :=
    fun _ _ _ _ _ => rfl
  have hite : ∀ {c : Prop} [Decidable c] {a b : Bool}, a = true → b = true →
      (if c then a else b) = true := fun ha hb => by split <;> assumption
  have h' := h
  simp only [finOpsThread, Bool.and_eq_true, List.all_append] at h'
  obtain ⟨⟨⟨⟨h1, h2⟩, h3⟩, h4⟩, h5⟩ := h'
  have hng : ∀ w : Var, (w != .yych) = true → (ops.negtag.getD w != .yych) = true := by
    intro w hw
    cases hn : ops.negtag
    · exact hw
    · rw [hn] at h5
      exact h5
  have hc := hng .cursor rfl
  have ht : ∀ x m, (ops.negtag.getD (.tag x m) != .yych) = true := fun _ _ => hng _ rfl
  -- the slots are variables of their own: push the check through every branch, then split on
  -- the base where a statement reads it
  cases hfin : expandFintags (dfa.tags t) with
  | nil =>
    simp only [genFintag, hfin, apply_ite (finOpsThread callee b), hmk,
      apply_ite (fun l : List Code => l.all fun x => stmtThreads callee b x && !x.isPeek),
      List.all_append, List.all_cons, List.all_nil, h, h1, h2, h3, h4, h5, hs, hs',
      Bool.and_true, Bool.true_and, ite_self]
    repeat' refine hite ?_ ?_
    all_goals (try split) <;> (try cases (dfa.tags t).base) <;> rfl
  | cons first rest =>
    obtain ⟨v, rfl⟩ := expandFintags_fin _ first (hfin ▸ List.mem_cons_self _ _)
    simp only [genFintag, hfin, apply_ite (finOpsThread callee b), hmk,
      apply_ite (fun l : List Code => l.all fun x => stmtThreads callee b x && !x.isPeek),
      List.all_append, List.all_cons, List.all_nil, h, h1, h2, h3, h4, h5, hs, hs', ha,
      Option.all_some, Bool.and_true, Bool.true_and, ite_self]
    repeat' refine hite ?_ ?_
    all_goals (try split) <;> (try cases (dfa.tags t).base) <;>
      first | rfl | (simp only [hif, hc, ht, Bool.and_true, Bool.true_and]; rfl)

theorem threads_genFintags (rule : Rule) : Threads callee b (genFintags opts dfa rule) := by
  have hfold : ∀ (ts : List Nat) (ops : FinOps), finOpsThread callee b ops = true →
      finOpsThread callee b (ts.foldl (genFintag opts dfa) ops) = true := by
    intro ts
    induction ts with
    | nil => exact fun _ h => h
    | cons t ts ih => exact fun ops h => ih _ (finOpsThread_genFintag opts dfa h t)
  have h := hfold (List.range' rule.ltag (rule.htag - rule.ltag)) ⟨[], [], [], [], none⟩ rfl
  simp only [finOpsThread, Bool.and_eq_true, List.all_append] at h
  obtain ⟨⟨⟨⟨h1, h2⟩, h3⟩, h4⟩, -⟩ := h
  unfold genFintags
  refine (((Threads.optional (by rfl) (by rfl)).append (.of_all h1)).append (.of_all h2)).append
    (.of_all h3) |>.append ?_
  split
  · exact ((Threads.single (by rfl) (by rfl)).append (.single (by rfl) (by rfl))).append (.of_all h4)
  · exact .nil

end FinalTags

/-! The shape of the DFA that the argument choice relies on. -/

def dispatchReadsYych : GoKind → Bool
  | .dot _ => false
  | .switchIf (.ifs (.linear bs)) => bs.any (·.cond.isSome)
  | _ => true

def dispatchJumps : GoKind → List CodeJump
  | .bitmap bm => ⟨bm.state, tcid0, false, false, false⟩ :: goJumps (.bitmap bm)
  | k => goJumps k

/-- A state that reads `yych` itself: a consuming state that does not omit its `YYPEEK`. -/
def peeks (dfa : Adfa) (s : StateId) : Bool := consume dfa s && !omitPeek dfa s

structure Tunnelled (dfa : Adfa) : Prop where
  nonempty : dfa.states ≠ []
  labels : (dfa.states.map fun t => (dfa.label t).index).Nodup
  first : ∀ s ∈ dfa.states.head?, dfa.action s ≠ .move
  fallback : ∀ t ∈ dfa.states,
    (dfa.fallback t).1 ∈ dfa.states ∧ dfa.action (dfa.fallback t).1 ≠ .move
  fillState : ∀ t ∈ dfa.states,
    (dfa.state t).fillState ∈ dfa.states ∧ dfa.action (dfa.state t).fillState ≠ .move
  jumps : ∀ t ∈ dfa.states, ∀ j ∈ dispatchJumps (dfa.go t).kind,
    j.dest ∈ dfa.states ∧ ∃ sp ∈ (dfa.go t).span, sp.dest = j.dest
  single : ∀ t ∈ dfa.states, (dfa.go t).span.length ≤ 1 → dispatchReadsYych (dfa.go t).kind = false
  moveSingle : ∀ t ∈ dfa.states, dfa.action t = .move → (dfa.go t).span.length = 1 →
    ∀ sp ∈ (dfa.go t).span, dfa.action sp.dest ≠ .move
  rule : ∀ t ∈ dfa.states, ∀ r, dfa.action t = .rule r →
    (dfa.go t).span.length ≤ 1 ∧ ∀ sp ∈ (dfa.go t).span, dfa.action sp.dest ≠ .move
  accepts : ∀ t ∈ dfa.states, ∀ a, dfa.action t = .accept a →
    (dfa.go t).span.length ≤ 1 ∧ (∀ sp ∈ (dfa.go t).span, dfa.action sp.dest ≠ .move) ∧
    ∀ x ∈ a, x.state ∈ dfa.states ∧ dfa.action x.state ≠ .move
  fallThrough : dfa.states.Chain' fun a b =>
    (dfa.label b).used = false → ∃ sp ∈ (dfa.go a).span, sp.dest = b

section Shape

variable {dfa : Adfa} {t : StateId}

theorem needYychArg_move (h : needYychArg dfa t = true) :
    dfa.action t = .move ∧ 1 < (dfa.go t).span.length := by
  unfold needYychArg omitPeek at h
  simp only [Bool.and_eq_true, Bool.or_eq_true, beq_iff_eq, decide_eq_true_eq] at h
  obtain ⟨⟨hmove | hspan, hlen⟩, -⟩ := h
  · exact ⟨hmove, hlen⟩
  · split at hspan
    · next sp heq => simp [heq] at hlen
    · cases hspan

theorem needYychArg_of_move (hm : dfa.action t = .move) (hl : 1 < (dfa.go t).span.length) :
    needYychArg dfa t = true := by
  have hend : endstate dfa t = false := by
    unfold endstate
    split
    · next sp heq => simp [heq] at hl
    · rfl
  simp [needYychArg, omitPeek, hm, hl, hend]

theorem calleeYych_label (hl : (dfa.states.map fun t => (dfa.label t).index).Nodup)
    (ht : t ∈ dfa.states) : calleeYych dfa (dfa.label t).index = some (needYychArg dfa t) := by
  rw [calleeYych, find?_eq_of_nodup_map hl ht fun _ _ => beq_iff_eq]
  rfl

theorem needYychArg_eq_false (h : dfa.action t ≠ .move) : needYychArg dfa t = false := by
  cases hn : needYychArg dfa t
  · rfl
  · exact absurd (needYychArg_move hn).1 h

end Shape

section Generators

variable {opts : Opts} {dfa : Adfa} {b : Bool} {s t : StateId}

theorem threads_tailcall (hd : Tunnelled dfa) {u : StateId} (hu : u ∈ dfa.states)
    (hb : needYychArg dfa u = true → b = true) :
    Threads (calleeYych dfa) b [.tailcall (.state (dfa.label u).index) (needYychArg dfa u)] :=
  .single (show ((!needYychArg dfa u || b) &&
      (calleeYych dfa (dfa.label u).index == some (needYychArg dfa u))) = true by
    rw [calleeYych_label hd.labels hu, beq_self_eq_true, Bool.and_true]
    exact not_or_bound (by cases h : needYychArg dfa u <;> simp [hb, h])) rfl

theorem threads_tailcall_false (hd : Tunnelled dfa) {u : StateId} (hu : u ∈ dfa.states)
    (hmove : dfa.action u ≠ .move) :
    Threads (calleeYych dfa) b [.tailcall (.state (dfa.label u).index) false] := by
  simpa only [needYychArg_eq_false hmove] using
    threads_tailcall hd hu fun h => by simp [needYychArg_eq_false hmove] at h

theorem threads_genSettags (t : Tcid) : Threads (calleeYych dfa) b (genSettags opts dfa t) :=
  threads_of_tagStmt _ _ fun c hc => (genSettags_tagStmt opts dfa t c hc).1

theorem threads_skip (p : Prop) [Decidable p] :
    Threads (calleeYych dfa) b (if p then [.skip] else []) :=
  .ite (fun _ => .single rfl rfl) fun _ => .nil

theorem threads_genTransition (hm : opts.codeModel = .recFunc) (hd : Tunnelled dfa) {j : CodeJump} (hj : j.dest ∈ dfa.states)
    (hb : needYychArg dfa j.dest = true → b = true) : Threads (calleeYych dfa) b (genTransition opts dfa j) := by
  unfold genTransition
  refine (threads_genSettags _ |>.append (threads_skip _)).append (.ite (fun _ => ?_) fun _ => .nil)
  simpa only [hm] using threads_tailcall hd hj hb

theorem threads_genFillFalllback (hm : opts.codeModel = .recFunc) (hd : Tunnelled dfa) (hs : s ∈ dfa.states) (jump : Option CodeJump) :
    Threads (calleeYych dfa) b (genFillFalllback opts dfa s jump) := by
  unfold genFillFalllback
  refine .ite (fun _ => .nil) fun _ => (threads_genSettags _).append ?_
  simpa only [hm] using threads_tailcall_false hd (hd.fallback s hs).1 (hd.fallback s hs).2

theorem threads_genResume (hm : opts.codeModel = .recFunc) (hd : Tunnelled dfa) (hs : s ∈ dfa.states) : Threads (calleeYych dfa) b (genResume opts dfa s) := by
  simpa only [genResume, hm] using threads_tailcall_false hd (hd.fillState s hs).1 (hd.fillState s hs).2

theorem threads_genIf (hm : opts.codeModel = .recFunc) {c : Cond} (hc : c.readsYych = false) {t e : List Code}
    (ht : Threads (calleeYych dfa) b t) (he : Threads (calleeYych dfa) b e) :
    Threads (calleeYych dfa) b (genIf opts c t e) := by
  rw [genIf, if_pos hm]
  exact .ifte (.inl hc) ht he

theorem threads_genGotoAfterFill (hm : opts.codeModel = .recFunc) (hd : Tunnelled dfa) (hs : s ∈ dfa.states) (jump : Option CodeJump) :
    Threads (calleeYych dfa) b (genGotoAfterFill opts dfa s jump) := by
  unfold genGotoAfterFill
  exact .ite (fun _ => threads_genIf hm (by rfl) (threads_genFillFalllback hm hd hs jump)
    (threads_genResume hm hd hs)) fun _ => threads_genResume hm hd hs

theorem threads_fillStmts (hm : opts.codeModel = .recFunc) (hd : Tunnelled dfa) (hs : s ∈ dfa.states) (jump : Option CodeJump) :
    Threads (calleeYych dfa) b (fillStmts opts dfa s jump) := by
  unfold fillStmts
  dsimp only
  have hfill : Threads (calleeYych dfa) b [.fill] := .single rfl rfl
  refine .ite (fun _ => .append (.ite (fun _ => .single rfl rfl) fun _ => .nil)
    (.ite (fun _ => .append (.ite (fun _ => hfill) fun _ => .nil) ?_) fun _ => hfill))
    fun _ => .ite (fun _ => threads_genFillFalllback hm hd hs jump) fun _ => .nil
  exact threads_genIf hm (by split <;> rfl) (threads_genGotoAfterFill hm hd hs jump)
    (threads_genFillFalllback hm hd hs jump)

theorem threads_genFill (hm : opts.codeModel = .recFunc) (hd : Tunnelled dfa) (hs : s ∈ dfa.states) {tail : List Code} (ht : Threads (calleeYych dfa) b tail)
    (jump : Option CodeJump) : Threads (calleeYych dfa) b (genFill opts dfa tail s jump) := by
  unfold genFill
  exact .ite (fun _ => threads_genIf hm (by rfl) (threads_fillStmts hm hd hs jump) ht)
    fun _ => (threads_fillStmts hm hd hs jump).append ht

theorem threads_genGoto (hm : opts.codeModel = .recFunc) (hd : Tunnelled dfa) (hs : s ∈ dfa.states) {j : CodeJump} (hj : j.dest ∈ dfa.states)
    (hb : needYychArg dfa j.dest = true → b = true) :
    Threads (calleeYych dfa) b (genGoto opts dfa (some s) j) := by
  cases h : j.eof
  · simpa only [genGoto, h] using threads_genTransition hm hd hj hb
  · simpa only [genGoto, h] using
      threads_genFill hm hd hs (threads_genTransition hm hd hj hb) (some j)

theorem threads_genGosw (hm : opts.codeModel = .recFunc) (hd : Tunnelled dfa) (hs : s ∈ dfa.states)
    (go : CodeGoSw) (hb : b = true) (hJ : ∀ c ∈ go.cases, c.jump.dest ∈ dfa.states) :
    Threads (calleeYych dfa) b (genGosw opts dfa go s) := by
  obtain ⟨cs, heq, hcs⟩ := genGosw_arms opts dfa s go
  rw [heq]
  refine Threads.switch (.inr hb) fun x hx => ?_
  obtain ⟨c, hc, hx⟩ := hcs x hx
  rw [hx]
  exact threads_genGoto hm hd hs (hJ c hc) fun _ => hb

theorem threads_genGoifl (hm : opts.codeModel = .recFunc) (hd : Tunnelled dfa) (hs : s ∈ dfa.states)
    (bs : List Branch) (hR : bs.any (·.cond.isSome) = true → b = true)
    (hJ : ∀ x ∈ bs, x.jump.dest ∈ dfa.states ∧ (needYychArg dfa x.jump.dest = true → b = true)) :
    Threads (calleeYych dfa) b (genGoifl opts dfa s bs) := by
  unfold genGoifl
  rw [if_neg (by simp [hm])]
  split
  · exact threads_genGoto hm hd hs (hJ _ (.head _)).1 (hJ _ (.head _)).2
  · refine Threads.branches fun x hx => ?_
    obtain ⟨br, hbr, rfl⟩ := List.mem_map.1 hx
    refine ⟨?_, threads_genGoto hm hd hs (hJ br hbr).1 (hJ br hbr).2⟩
    cases hc : br.cond with
    | none => exact .inl (by simp [hc])
    | some c => exact .inr (hR (List.any_eq_true.2 ⟨br, hbr, by simp [hc]⟩))

theorem threads_genGoif (hm : opts.codeModel = .recFunc) (hd : Tunnelled dfa) (hs : s ∈ dfa.states) :
    ∀ go : CodeGoIf, (dispatchReadsYych (.switchIf (.ifs go)) = true → b = true) →
      (∀ j ∈ goIfJumps go, j.dest ∈ dfa.states ∧ (needYychArg dfa j.dest = true → b = true)) →
      Threads (calleeYych dfa) b (genGoif opts dfa s go)
  | .binary _ t e, hR, hJ => by
    have hb : b = true := hR rfl
    rw [genGoif]
    exact .ifte (.inr hb)
      (threads_genGoif hm hd hs t (fun _ => hb) fun j hj => hJ j (List.mem_append_left _ hj))
      (threads_genGoif hm hd hs e (fun _ => hb) fun j hj => hJ j (List.mem_append_right _ hj))
  | .linear bs, hR, hJ => by
    rw [genGoif]
    exact threads_genGoifl hm hd hs bs hR fun x hx => hJ _ (List.mem_map_of_mem _ hx)

theorem threads_genGoswif (hm : opts.codeModel = .recFunc) (hd : Tunnelled dfa) (hs : s ∈ dfa.states)
    (go : CodeGoSwIf) (hR : dispatchReadsYych (.switchIf go) = true → b = true)
    (hJ : ∀ j ∈ goSwIfJumps go, j.dest ∈ dfa.states ∧ (needYychArg dfa j.dest = true → b = true)) :
    Threads (calleeYych dfa) b (genGoswif opts dfa s go) := by
  cases go with
  | switch sw =>
    exact threads_genGosw hm hd hs sw (hR rfl) fun c hc => (hJ _ (List.mem_map_of_mem _ hc)).1
  | ifs i => exact threads_genGoif hm hd hs i hR hJ

theorem threads_genGobm (hm : opts.codeModel = .recFunc) (hd : Tunnelled dfa) (hs : s ∈ dfa.states)
    (go : CodeGoBm) (hb : b = true) (hJ : ∀ j ∈ dispatchJumps (.bitmap go), j.dest ∈ dfa.states) :
    Threads (calleeYych dfa) b (genGobm opts dfa go s) := by
  have hgoto := threads_genGoto hm hd hs (hJ ⟨go.state, tcid0, false, false, false⟩ (.head _))
    fun _ => hb
  have hsub : ∀ g, (go.hgo = some g ∨ go.lgo = some g) →
      Threads (calleeYych dfa) b (genGoswif opts dfa s g) := fun g hg =>
    threads_genGoswif hm hd hs g (fun _ => hb) fun j hj => ⟨hJ j (.tail _ (by
      rcases hg with hg | hg <;> simp only [goJumps, hg, Option.map_some', Option.getD_some]
      exacts [List.mem_append_left _ hj, List.mem_append_right _ hj])), fun _ => hb⟩
  unfold genGobm
  refine .append ?_ ?_
  · split
    · next g hg =>
      exact .branches (List.forall_mem_cons.2 ⟨⟨.inr hb, hsub g (.inl hg)⟩,
        List.forall_mem_cons.2 ⟨⟨.inr hb, hgoto⟩, fun _ h => nomatch h⟩⟩)
    · exact .ifte (.inr hb) hgoto .nil
  · split
    · next g hg => exact hsub g (.inr hg)
    · exact .nil

theorem threads_genGocp (hm : opts.codeModel = .recFunc) (hd : Tunnelled dfa) (hs : s ∈ dfa.states)
    (go : CodeGoCp) (hb : b = true) (hJ : ∀ j ∈ dispatchJumps (.cpgoto go), j.dest ∈ dfa.states) :
    Threads (calleeYych dfa) b (genGocp opts dfa go s) := by
  have htable : Threads (calleeYych dfa) b
      (genGocpTable dfa go.table ++ [.gotoTable .yytarget (.var .yych)]) :=
    Threads.append (by unfold genGocpTable; exact .single rfl rfl)
      (.single (by subst hb; rfl) rfl)
  unfold genGocp
  split
  · next g hg =>
    exact .ifte (.inr hb) (threads_genGoswif hm hd hs g (fun _ => hb) fun j hj =>
      ⟨hJ j (by simp [dispatchJumps, goJumps, hg, hj]), fun _ => hb⟩) htable
  · exact htable.block

theorem threads_genGodot (go : CodeGoSw) : Threads (calleeYych dfa) b (genGodot dfa go s) := by
  unfold genGodot
  split
  · exact .single rfl rfl
  · exact .of_forall fun c hc => by obtain ⟨_, -, rfl⟩ := List.mem_map.1 hc; exact ⟨rfl, rfl⟩

theorem threads_genGo (hm : opts.codeModel = .recFunc) (hd : Tunnelled dfa) (hs : s ∈ dfa.states)
    (hb : (dispatchReadsYych (dfa.go s).kind = true ∨
      ∃ j ∈ dispatchJumps (dfa.go s).kind, needYychArg dfa j.dest = true) → b = true) :
    Threads (calleeYych dfa) b (genGo opts dfa (dfa.go s) s) := by
  have hJ := hd.jumps s hs
  have hpre : Threads (calleeYych dfa) b
      ((if opts.fillEof.isNone then genSettags opts dfa (dfa.go s).tags else []) ++
        if (dfa.go s).skip then [.skip] else []) :=
    (Threads.ite (fun _ => threads_genSettags _) fun _ => .nil).append (threads_skip _)
  unfold genGo
  cases hk : (dfa.go s).kind with
  | dot g => exact threads_genGodot g
  | switchIf g =>
    rw [hk] at hb hJ
    exact hpre.append (threads_genGoswif hm hd hs g (fun h => hb (.inl h))
      fun j hj => ⟨(hJ j hj).1, fun h => hb (.inr ⟨j, hj, h⟩)⟩)
  | bitmap g =>
    rw [hk] at hb hJ
    exact hpre.append (threads_genGobm hm hd hs g (hb (.inl rfl)) fun j hj => (hJ j hj).1)
  | cpgoto g =>
    rw [hk] at hb hJ
    exact hpre.append (threads_genGocp hm hd hs g (hb (.inl rfl)) fun j hj => (hJ j hj).1)

/-! The code of a state's action. -/

theorem threads_emitRule (r : Nat) : Threads (calleeYych dfa) b (emitRule opts dfa r) := by
  dsimp only [emitRule]
  refine (threads_genFintags opts dfa _).append (.ite (fun _ => .nil) fun _ => ?_)
  unfold genRuleStateCond
  refine ((Threads.optional (by split <;> rfl) (by rfl)).append (.optional (by rfl) (by rfl))).append ?_
  split
  · exact (Threads.optional (by rfl) (by rfl)).append (.single (by rfl) (by rfl))
  · split <;> exact .single (by rfl) (by rfl)

theorem threads_acceptJump (hm : opts.codeModel = .recFunc) (hd : Tunnelled dfa) {a : AcceptTrans}
    (ha : a.state ∈ dfa.states) (hmove : dfa.action a.state ≠ .move) :
    Threads (calleeYych dfa) b (genGoto opts dfa none (acceptJump a)) :=
  threads_genTransition hm hd ha fun h => absurd (needYychArg_move h).1 hmove

theorem threads_emitAcceptBinary (hm : opts.codeModel = .recFunc) (hd : Tunnelled dfa)
    {acc : List AcceptTrans} (hacc : ∀ x ∈ acc, x.state ∈ dfa.states ∧ dfa.action x.state ≠ .move)
    (l r : Nat) : l ≤ r → r < acc.length →
      Threads (calleeYych dfa) b (emitAcceptBinary opts dfa acc l r) := by
  induction l, r using emitAcceptBinary.induct opts dfa acc with
  | case1 l r hlt _ ih1 ih2 =>
    intro _ hr
    rw [emitAcceptBinary, if_pos hlt]
    exact .ifte (.inl rfl) (ih1 (by omega) (by omega)) (ih2 (by omega) hr)
  | case2 l r hlt =>
    intro _ hr
    rw [emitAcceptBinary, if_neg hlt]
    have hmem : acc.getD l default ∈ acc := by
      rw [List.getD_eq_getElem _ _ (by omega)]
      exact List.getElem_mem _
    exact threads_acceptJump hm hd (hacc _ hmem).1 (hacc _ hmem).2

theorem threads_emitAccept (hm : opts.codeModel = .recFunc) (hd : Tunnelled dfa)
    {acc : List AcceptTrans} (hacc : ∀ x ∈ acc, x.state ∈ dfa.states ∧ dfa.action x.state ≠ .move) :
    Threads (calleeYych dfa) b (emitAccept opts dfa acc) := by
  have hjump : ∀ a ∈ acc, Threads (calleeYych dfa) b (genGoto opts dfa none (acceptJump a)) :=
    fun a ha => threads_acceptJump hm hd (hacc a ha).1 (hacc a ha).2
  unfold emitAccept genRestore
  dsimp only
  refine .ite (fun _ => .nil) fun h0 => Threads.append
    (.ite (fun _ => .single (by rfl) (by rfl)) fun _ => .single (by rfl) (by rfl))
    (.ite (fun _ => hjump _ ?_) fun _ => .ite
      (fun _ => .block ((Threads.single (by rfl) (by rfl)).append (.single (by rfl) (by rfl))))
      fun _ => .ite (fun _ => threads_emitAcceptBinary hm hd hacc 0 _ (Nat.zero_le _) (by omega))
      fun _ => .switch (.inl rfl) fun x hx => ?_)
  · rw [List.getD_eq_getElem _ _ (by omega)]
    exact List.getElem_mem _
  · obtain ⟨⟨i, a⟩, hia, rfl⟩ := List.mem_map.1 hx
    exact hjump a (List.snd_mem_of_mem_enum hia)

theorem threads_genFillAndLabel (hm : opts.codeModel = .recFunc) (hd : Tunnelled dfa)
    (hs : s ∈ dfa.states) : Threads (calleeYych dfa) b (genFillAndLabel opts dfa s) := by
  unfold genFillAndLabel
  refine ((Threads.ite (fun _ => threads_genFill hm hd hs .nil none) fun _ => .nil).append
    (.ite (fun _ => threads_genSettags _) fun _ => .nil)).append ?_
  split
  · exact .optional (by rfl) (by rfl)
  · exact .nil

theorem threads_emitState : Threads (calleeYych dfa) b (emitState opts dfa s) := by
  unfold emitState genDebug
  refine .ite (fun _ => .nil) fun _ => (Threads.optional (by rfl) (by rfl)).append ?_
  split
  · exact .nil
  · exact .optional (by rfl) (by rfl)

/-! Where `yych` is bound: after the `YYPEEK` of a consuming state, and on entry to a MOVE state
of two spans or more. -/

theorem stmtsThread_peek {callee : Nat → Option Bool} {ys : List Code}
    (hy : Threads callee (b || !omitPeek dfa t) ys) :
    stmtsThread callee b (genPeek dfa t ++ ys) = true := by
  unfold genPeek
  cases h : omitPeek dfa t <;> rw [h] at hy
  · exact hy.1
  · simpa only [Bool.not_true, Bool.or_false] using hy.1

theorem omitPeek_spans (hmove : dfa.action t ≠ .move) (h : omitPeek dfa t = true) :
    (dfa.go t).span.length ≤ 1 ∧ ∀ sp ∈ (dfa.go t).span, dfa.action sp.dest ≠ .move := by
  unfold omitPeek at h
  rw [show (dfa.action t == .move) = false from beq_false_of_ne hmove, Bool.false_or] at h
  split at h
  · next sp hsp => simpa [hsp] using bne_iff_ne.1 h
  · cases h

theorem move_spans (hd : Tunnelled dfa) (ht : t ∈ dfa.states) (hmove : dfa.action t = .move)
    (hl : ¬1 < (dfa.go t).span.length) : ∀ sp ∈ (dfa.go t).span, dfa.action sp.dest ≠ .move :=
  fun sp hsp => hd.moveSingle t ht hmove (by have := List.length_pos_of_mem hsp; omega) sp hsp

theorem quiet_of_spans (hd : Tunnelled dfa) (ht : t ∈ dfa.states)
    (hlen : (dfa.go t).span.length ≤ 1)
    (hdest : ∀ sp ∈ (dfa.go t).span, dfa.action sp.dest ≠ .move) :
    ¬(dispatchReadsYych (dfa.go t).kind = true ∨
      ∃ j ∈ dispatchJumps (dfa.go t).kind, needYychArg dfa j.dest = true) := by
  rintro (h | ⟨j, hj, hn⟩)
  · rw [hd.single t ht hlen] at h
    cases h
  · obtain ⟨sp, hsp, heq⟩ := (hd.jumps t ht j hj).2
    exact hdest sp hsp (heq ▸ (needYychArg_move hn).1)

theorem threads_genGo_quiet (hm : opts.codeModel = .recFunc) (hd : Tunnelled dfa)
    (ht : t ∈ dfa.states) (hlen : (dfa.go t).span.length ≤ 1)
    (hdest : ∀ sp ∈ (dfa.go t).span, dfa.action sp.dest ≠ .move) :
    Threads (calleeYych dfa) b (genGo opts dfa (dfa.go t) t) :=
  threads_genGo hm hd ht fun h => absurd h (quiet_of_spans hd ht hlen hdest)

theorem threads_genGo_peeked (hm : opts.codeModel = .recFunc) (hd : Tunnelled dfa)
    (ht : t ∈ dfa.states) (hmove : dfa.action t ≠ .move) :
    Threads (calleeYych dfa) (b || !omitPeek dfa t) (genGo opts dfa (dfa.go t) t) := by
  refine threads_genGo hm hd ht fun h => ?_
  cases hp : omitPeek dfa t
  · exact Bool.or_true b
  · exact absurd h (quiet_of_spans hd ht (omitPeek_spans hmove hp).1 (omitPeek_spans hmove hp).2)

theorem threads_stateCode (hm : opts.codeModel = .recFunc) (hd : Tunnelled dfa)
    (ht : t ∈ dfa.states) (hb : dfa.action t = .move → 1 < (dfa.go t).span.length → b = true) :
    stmtsThread (calleeYych dfa) b (stateCode opts dfa t) = true := by
  have hfl := threads_genFillAndLabel (b := b) hm hd ht
  unfold stateCode emitAction
  cases ha : dfa.action t with
  | «match» =>
    simp only [List.append_assoc]
    exact threads_emitState.seq ((Threads.optional (by rfl) (by rfl)).seq
      (hfl.seq (stmtsThread_peek (threads_genGo_peeked hm hd ht (by simp [ha])))))
  | initial save =>
    simp only [List.append_assoc]
    exact threads_emitState.seq ((Threads.optional (by rfl) (by rfl)).seq
      ((Threads.optional (by rfl) (by rfl)).seq ((Threads.single (by rfl) (by rfl)).seq (hfl.seq
      ((Threads.optional (by rfl) (by rfl)).seq (stmtsThread_peek
      ((Threads.optional (by rfl) (by rfl)).append
        (threads_genGo_peeked hm hd ht (by simp [ha])))))))))
  | save save =>
    simp only [List.append_assoc]
    exact threads_emitState.seq ((Threads.optional (by rfl) (by rfl)).seq
      ((Threads.optional (by rfl) (by rfl)).seq ((Threads.single (by rfl) (by rfl)).seq (hfl.seq
      (stmtsThread_peek (threads_genGo_peeked hm hd ht (by simp [ha])))))))
  | move =>
    simp only [List.append_nil]
    refine (threads_emitState.append (threads_genGo hm hd ht fun h => ?_)).1
    by_cases hl : 1 < (dfa.go t).span.length
    · exact hb ha hl
    · exact absurd h (quiet_of_spans hd ht (by omega) (move_spans hd ht ha hl))
  | accept acc =>
    obtain ⟨hl, hsp, hacc⟩ := hd.accepts t ht acc ha
    exact ((threads_emitState.append (threads_emitAccept hm hd hacc)).append
      (threads_genGo_quiet hm hd ht hl hsp)).1
  | rule r =>
    obtain ⟨hl, hsp⟩ := hd.rule t ht r ha
    exact ((threads_emitState.append (threads_emitRule r)).append
      (threads_genGo_quiet hm hd ht hl hsp)).1

theorem bound_after (hd : Tunnelled dfa) (ht : t ∈ dfa.states) {sp : Span}
    (hsp : sp ∈ (dfa.go t).span) (hmu : dfa.action sp.dest = .move)
    (hb : dfa.action t = .move → 1 < (dfa.go t).span.length → b = true) :
    (b || (stateCode opts dfa t).any Code.isPeek) = true := by
  cases ha : dfa.action t
  case move =>
    by_cases hl : 1 < (dfa.go t).span.length
    · simp [hb ha hl]
    · exact absurd hmu (move_spans hd ht ha hl sp hsp)
  case accept acc => exact absurd hmu ((hd.accepts t ht acc ha).2.1 sp hsp)
  case rule r => exact absurd hmu ((hd.rule t ht r ha).2 sp hsp)
  -- a consuming state: its transition to a MOVE state keeps its `YYPEEK`
  all_goals
    have hop : omitPeek dfa t = false := by
      cases h : omitPeek dfa t
      · rfl
      · exact absurd hmu ((omitPeek_spans (by simp [ha]) h).2 sp hsp)
    have hpeek : Code.peek ∈ stateCode opts dfa t := by
      simp [stateCode, emitAction, ha, genPeek, hop]
    rw [show (stateCode opts dfa t).any Code.isPeek = true from List.any_eq_true.2 ⟨_, hpeek, rfl⟩,
      Bool.or_true]

theorem threads_chain (hm : opts.codeModel = .recFunc) (hd : Tunnelled dfa) :
    ∀ (g : List StateId) (b : Bool), (∀ t ∈ g, t ∈ dfa.states) →
      (∀ u ∈ g.tail, (dfa.label u).used = false) →
      g.Chain' (fun a c => (dfa.label c).used = false → ∃ sp ∈ (dfa.go a).span, sp.dest = c) →
      (∀ t ∈ g.head?, dfa.action t = .move → 1 < (dfa.go t).span.length → b = true) →
      stmtsThread (calleeYych dfa) b (g.flatMap (stateCode opts dfa)) = true
  | [], _, _, _, _, _ => rfl
  | t :: g, b, hs, hu, hc, hb => by
    have ht := hs t (.head _)
    rw [List.flatMap_cons, stmtsThread_append, threads_stateCode hm hd ht (hb t rfl), Bool.true_and]
    refine threads_chain hm hd g _ (fun u hu' => hs u (.tail _ hu'))
      (fun u hu' => hu u (List.mem_of_mem_tail hu')) hc.tail fun u hu' hmu _ => ?_
    obtain ⟨sp, hsp, rfl⟩ := hc.rel_head? hu' (hu _ (List.mem_of_mem_head? hu'))
    exact bound_after hd ht hsp hmu (hb t rfl)

end Generators

theorem genDfaAsRecursiveFunctions_threads_yych (opts : Opts) (dfa : Adfa)
    (hm : opts.codeModel = .recFunc) (hd : Tunnelled dfa) :
    (∀ f ∈ genDfaAsRecursiveFunctions opts dfa,
      stmtsThread (calleeYych dfa) f.yych f.body = true) ∧
    ∀ f ∈ genDfaAsRecursiveFunctions opts dfa, ∀ n, f.name = .state n →
      calleeYych dfa n = some f.yych := by
  obtain ⟨s, l, hsl⟩ := List.exists_cons_of_ne_nil hd.nonempty
  have hentry : ∀ f ∈ genCondEntry dfa, f = ⟨.cond dfa.cond, false,
      [.tailcall (.state (dfa.label (dfa.states.headD 0)).index) false]⟩ := by
    unfold genCondEntry
    split <;> simp
  rw [genDfaAsRecursiveFunctions_eq]
  constructor
  · intro f hf
    rcases List.mem_append.1 hf with hf | hf
    · obtain ⟨g, hg, rfl⟩ := List.mem_map.1 hf
      obtain ⟨s, rest, rfl, -, hrest⟩ := groups_shape dfa _ g hg
      have hinf := List.infix_of_mem_flatten hg
      rw [flatten_groups] at hinf
      have hchain := hd.fallThrough
      obtain ⟨l1, l2, hsplit⟩ := hinf
      rw [← hsplit] at hchain
      refine threads_chain hm hd _ _ (fun t ht => hsplit ▸ List.mem_append_left _
        (List.mem_append_right _ ht)) hrest hchain.left_of_append.right_of_append ?_
      rintro t ht hmove hl
      cases Option.some_injective _ ht
      exact needYychArg_of_move hmove hl
    · -- the entry of a condition calls its first state, which is not a MOVE state
      rw [hentry f hf, hsl]
      have hc := calleeYych_label hd.labels (hsl ▸ List.mem_cons_self s l)
      rw [needYychArg_eq_false (hd.first s (by simp [hsl]))] at hc
      show (((!false || false) && (calleeYych dfa (dfa.label s).index == some false)) && true) = true
      rw [hc]
      rfl
  · intro f hf n hn
    rcases List.mem_append.1 hf with hf | hf
    · obtain ⟨g, hg, rfl⟩ := List.mem_map.1 hf
      cases hn
      exact calleeYych_label hd.labels (head_mem_of_mem_groups dfa hg)
    · rw [hentry f hf] at hn
      cases hn

def recFuncOpts : Opts := { (default : Opts) with codeModel := .recFunc }

def jumpTo (d : StateId) : CodeJump := ⟨d, tcid0, false, false, false⟩

def dispatchTo (d d' : StateId) (c : Nat) : CodeGo :=
  { kind := .switchIf (.ifs (.linear [⟨some ⟨.lt, c⟩, jumpTo d⟩, ⟨none, jumpTo d'⟩])),
    span := [⟨c, d⟩, ⟨256, d'⟩], tags := tcid0, skip := false }

def goTo (d : StateId) : CodeGo :=
  { kind := .switchIf (.ifs (.linear [⟨none, jumpTo d⟩])), span := [⟨256, d⟩], tags := tcid0,
    skip := false }

def noGo : CodeGo :=
  { kind := .switchIf (.ifs (.linear [])), span := [], tags := tcid0, skip := false }

def peekMoveDfa : Adfa :=
  { (default : Adfa) with
    state := fun s => match s with
      | 0 => { (default : State) with
          label := ⟨0, true⟩, action := .initial none, go := dispatchTo 1 3 97 }
      | 1 => { (default : State) with label := ⟨1, false⟩, action := .move, go := dispatchTo 2 3 98 }
      | 2 => { (default : State) with label := ⟨2, true⟩, action := .move, go := dispatchTo 3 3 99 }
      | _ => { (default : State) with label := ⟨3, true⟩, action := .rule 0, go := noGo }
    states := [0, 1, 2, 3], fallback := fun _ => (3, tcid0) }

theorem peekMoveDfa_tunnelled : Tunnelled peekMoveDfa where
  nonempty := by decide
  labels := by decide
  first := by decide
  fallback := by decide
  fillState := by decide
  jumps := by decide
  single := by decide
  moveSingle := by decide
  rule := by
    intro t ht r ha
    simp only [peekMoveDfa, List.mem_cons, List.mem_singleton, List.not_mem_nil, or_false] at ht
    rcases ht with rfl | rfl | rfl | rfl <;> first | decide | cases ha
  accepts := by
    intro t ht a ha
    simp only [peekMoveDfa, List.mem_cons, List.mem_singleton, List.not_mem_nil, or_false] at ht
    rcases ht with rfl | rfl | rfl | rfl <;> cases ha
  fallThrough := List.chain'_cons.2 ⟨by decide, List.chain'_cons.2 ⟨by decide,
    List.chain'_cons.2 ⟨by decide, List.chain'_singleton _⟩⟩⟩

theorem genDfaAsRecursiveFunctions_threads_yych_peekMove :
    recFuncOpts.codeModel = .recFunc ∧ Tunnelled peekMoveDfa ∧ calleeYych peekMoveDfa 2 = some true ∧
    (∀ f ∈ genDfaAsRecursiveFunctions recFuncOpts peekMoveDfa,
      stmtsThread (calleeYych peekMoveDfa) f.yych f.body = true) ∧
    ∀ f ∈ genDfaAsRecursiveFunctions recFuncOpts peekMoveDfa, ∀ n, f.name = .state n →
      calleeYych peekMoveDfa n = some f.yych :=
  ⟨rfl, peekMoveDfa_tunnelled, by decide,
    genDfaAsRecursiveFunctions_threads_yych recFuncOpts peekMoveDfa rfl peekMoveDfa_tunnelled⟩

def moveChainDfa : Adfa :=
  { (default : Adfa) with
    state := fun s => match s with
      | 0 => { (default : State) with
          label := ⟨0, true⟩, action := .initial none, go := dispatchTo 1 3 97 }
      | 1 => { (default : State) with label := ⟨1, true⟩, action := .move, go := goTo 2 }
      | 2 => { (default : State) with label := ⟨2, true⟩, action := .move, go := dispatchTo 3 3 98 }
      | _ => { (default : State) with label := ⟨3, true⟩, action := .rule 0, go := noGo }
    states := [0, 1, 2, 3], fallback := fun _ => (3, tcid0) }

theorem moveChain_passes_unbound_yych :
    (∀ t ∈ moveChainDfa.states, moveChainDfa.action (moveChainDfa.fallback t).1 ≠ .move ∧
      moveChainDfa.action (moveChainDfa.state t).fillState ≠ .move) ∧
    ∃ f ∈ genDfaAsRecursiveFunctions recFuncOpts moveChainDfa, f.yych = false ∧
      f.body = [.tailcall (.state 2) true] ∧ calleeYych moveChainDfa 2 = some true ∧
      stmtsThread (calleeYych moveChainDfa) f.yych f.body = false := by
  have hcode : stateCode recFuncOpts moveChainDfa 1 = [.tailcall (.state 2) true] := by
    rw [show stateCode recFuncOpts moveChainDfa 1 = [] ++ [] ++
      ((genSettags recFuncOpts moveChainDfa tcid0 ++ []) ++
        (genSettags recFuncOpts moveChainDfa tcid0 ++ [] ++ [.tailcall (.state 2) true])) from rfl]
    simp
  refine ⟨by decide, ⟨.state 1, false, [.tailcall (.state 2) true]⟩, ?_, rfl, rfl, by decide,
    by decide⟩
  rw [genDfaAsRecursiveFunctions_eq, groups_of_used moveChainDfa _ (by decide)]
  refine List.mem_append_left _ (List.mem_map.2 ⟨[1], by decide, ?_⟩)
  simp only [List.flatMap_cons, List.flatMap_nil, List.append_nil, hcode]
  rfl

end Re2cCodegen.RecFunc
