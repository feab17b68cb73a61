import Mathlib.Data.Nat.Bitwise
import Re2cCodegen.Output

/-! The bitmaps of `gen_bitmap`: tables that record, for up to eight states sharing each byte,
which characters lead to each state, and the test `yybm[offset + yych] & mask` that `gen_gobm`
emits on them. -/

namespace Re2cCodegen.Bitmap

open Re2cCodegen.Dfa Re2cCodegen.Output

/-- A state of a bitmap: the spans of its transitions and the state the bitmap tests for. -/
structure CodeBmState where
  span : List Span
  state : StateId
  deriving DecidableEq, Repr, Inhabited

structure CodeBitmap where
  states : List CodeBmState
  nchars : Nat
  used : Bool
  deriving Repr

def orRange (tmp : Nat → Nat) (lo hi mask : Nat) : Nat → Nat :=
  fun i => if lo ≤ i ∧ i < hi then tmp i ||| mask else tmp i

/-- The loop over the spans of one state, `c` running over their lower bounds: a span to
`dest` sets `mask` on its characters below `nchars`. -/
def markSpans (nchars mask : Nat) (dest : StateId) : (Nat → Nat) → Nat → List Span → Nat → Nat
  | tmp, _, [] => tmp
  | tmp, c, sp :: sps =>
    markSpans nchars mask dest (if sp.dest = dest then orRange tmp c (min sp.ub nchars) mask else tmp)
      sp.ub sps

/-- The loop over the masks `0x80, 0x40, …, 0x01` of one group: each state gets `offset` and
its mask, until the masks or the states run out. -/
def fillGroup (nchars offset : Nat) : Nat → (Nat → Nat) → List CodeBmState →
    List (Nat × Nat) × (Nat → Nat) × List CodeBmState
  | _, tmp, [] => ([], tmp, [])
  | mask, tmp, b :: bs =>
    if mask = 0 then ([], tmp, b :: bs) else
    let r := fillGroup nchars offset (mask >>> 1) (markSpans nchars mask b.state tmp 0 b.span) bs
    ((offset, mask) :: r.1, r.2.1, r.2.2)

theorem fillGroup_rest_length (nchars offset : Nat) :
    ∀ (bs : List CodeBmState) (mask : Nat) (tmp : Nat → Nat), (fillGroup nchars offset mask tmp bs).2.2.length ≤ bs.length
  | [], _, _ => Nat.le_refl _
  | b :: bs, mask, tmp => by
    unfold fillGroup
    split
    · exact Nat.le_refl _
    · exact Nat.le_succ_of_le (fillGroup_rest_length nchars offset bs _ _)

/-- The outer loop: group `bmidx` of the states fills a fresh `tmpbuf`, whose first `nchars`
elements are written at `bmidx * nchars`. -/
def genGroups (nchars bmidx : Nat) (elems : Nat → Nat) : List CodeBmState → List (Nat × Nat) × (Nat → Nat)
  | [] => ([], elems)
  | b :: bs =>
    let g := fillGroup nchars (bmidx * nchars) 0x80 (fun _ => 0) (b :: bs)
    have : g.2.2.length < (b :: bs).length := by
      have h := fillGroup_rest_length nchars (bmidx * nchars) bs (0x80 >>> 1)
        (markSpans nchars 0x80 b.state (fun _ => 0) 0 b.span)
      simp only [g, fillGroup, if_neg (show (0x80 : Nat) ≠ 0 by decide)]
      exact Nat.lt_succ_of_le h
    let r := genGroups nchars (bmidx + 1)
      (fun i => if bmidx * nchars ≤ i ∧ i < bmidx * nchars + nchars then g.2.1 (i - bmidx * nchars)
        else elems i) g.2.2
    (g.1 ++ r.1, r.2)
termination_by bs => bs.length

/-- `gen_bitmap`: nothing for a bitmap without states or unused, else the `(offset, mask)` it
gives each state, in order, and the `nelems` elements of the table. How an element is printed
(`bitmaps_hex`) and the table's name and type are not kept. -/
def genBitmap (bitmap : CodeBitmap) : Option (List (Nat × Nat) × List Nat) :=
  if bitmap.states.isEmpty || !bitmap.used then none else
  let nmaps := bitmap.states.length
  let nelems := bitmap.nchars * ((nmaps + 8 - 1) / 8)
  let r := genGroups bitmap.nchars 0 (fun _ => 0) bitmap.states
  some (r.1, (List.range nelems).map r.2)

/-! What the table says. -/

def spanDest (spans : List Span) (c : Nat) : Option StateId := (spans.find? (c < ·.ub)).map (·.dest)

def marks (nchars : Nat) (b : CodeBmState) (c : Nat) : Bool :=
  decide (c < nchars) && spanDest b.span c == some b.state

def Increasing (spans : List Span) : Prop := spans.Pairwise fun a b => a.ub < b.ub

instance (spans : List Span) : Decidable (Increasing spans) :=
  inferInstanceAs (Decidable (spans.Pairwise fun a b : Span => a.ub < b.ub))

theorem markSpans_eq (nchars mask dest : Nat) :
    ∀ (spans : List Span) (tmp : Nat → Nat) (c : Nat), Increasing spans → (∀ sp ∈ spans.head?, c ≤ sp.ub) →
      markSpans nchars mask dest tmp c spans =
        fun i => if c ≤ i ∧ i < nchars ∧ spanDest spans i = some dest then tmp i ||| mask else tmp i
  | [], tmp, c, _, _ => by
    funext i
    simp [markSpans, spanDest]
  | sp :: sps, tmp, c, hinc, hc => by
    obtain ⟨hlt, hinc⟩ := List.pairwise_cons.1 hinc
    have hub : ∀ sp' ∈ sps.head?, sp.ub ≤ sp'.ub := fun sp' h =>
      Nat.le_of_lt (hlt sp' (List.mem_of_mem_head? h))
    have hc : c ≤ sp.ub := hc sp rfl
    rw [markSpans, markSpans_eq nchars mask dest sps _ sp.ub hinc hub]
    funext i
    by_cases hi : i < sp.ub
    · have hspan : spanDest (sp :: sps) i = some sp.dest := by simp [spanDest, hi]
      rw [if_neg (fun h => Nat.not_le.2 hi h.1), hspan]
      by_cases hd : sp.dest = dest
      · simp only [hd, if_true, orRange, Nat.lt_min, hi, true_and, and_true]
      · simp [hd]
    · have hspan : spanDest (sp :: sps) i = spanDest sps i := by simp [spanDest, hi]
      have htmp : (if sp.dest = dest then orRange tmp c (min sp.ub nchars) mask else tmp) i = tmp i := by
        split
        · simp only [orRange, Nat.lt_min, hi, and_false, false_and, if_false]
        · rfl
      simp only [hspan, htmp, Nat.le_of_not_lt hi, Nat.le_trans hc (Nat.le_of_not_lt hi), true_and]

theorem markSpans_state (nchars mask : Nat) (b : CodeBmState) (hb : Increasing b.span) (tmp : Nat → Nat) :
    markSpans nchars mask b.state tmp 0 b.span = fun i => if marks nchars b i then tmp i ||| mask else tmp i := by
  rw [markSpans_eq nchars mask b.state b.span tmp 0 hb fun _ _ => Nat.zero_le _]
  funext i
  simp [marks, Nat.zero_le]

theorem fillGroup_zero (nchars offset : Nat) (tmp : Nat → Nat) (bs : List CodeBmState) :
    fillGroup nchars offset 0 tmp bs = ([], tmp, bs) := by
  cases bs <;> rfl

theorem exists_lt_succ_iff' (n : Nat) (p : Nat → Prop) : (∃ j < n + 1, p j) ↔ p 0 ∨ ∃ j < n, p (j + 1) := by
  constructor
  · rintro ⟨j, hj, hp⟩
    cases j with
    | zero => exact .inl hp
    | succ j => exact .inr ⟨j, by omega, hp⟩
  · rintro (hp | ⟨j, hj, hp⟩)
    · exact ⟨0, by omega, hp⟩
    · exact ⟨j + 1, by omega, hp⟩

theorem testBit_mark (m : Bool) (x k t : Nat) :
    (if m then x ||| 2 ^ k else x).testBit t = true ↔ x.testBit t = true ∨ (t = k ∧ m = true) := by
  cases m <;> simp [Nat.testBit_two_pow, @eq_comm _ k t]

theorem fillGroup_spec (nchars offset : Nat) :
    ∀ (bs : List CodeBmState) (k : Nat) (tmp : Nat → Nat), (∀ b ∈ bs, Increasing b.span) →
      (fillGroup nchars offset (2 ^ k) tmp bs).1 =
        (List.range (min (k + 1) bs.length)).map (fun j => (offset, 2 ^ (k - j))) ∧
      (fillGroup nchars offset (2 ^ k) tmp bs).2.2 = bs.drop (k + 1) ∧
      ∀ i t, ((fillGroup nchars offset (2 ^ k) tmp bs).2.1 i).testBit t = true ↔
        (tmp i).testBit t = true ∨
          ∃ j < min (k + 1) bs.length, t = k - j ∧ marks nchars (bs.getD j default) i = true
  | [], k, tmp, _ => by simp [fillGroup]
  | b :: bs, k, tmp, hinc => by
    have hb := hinc b (List.mem_cons_self _ _)
    have hbs : ∀ b ∈ bs, Increasing b.span := fun b' h => hinc b' (List.mem_cons_of_mem _ h)
    simp only [fillGroup, if_neg (Nat.pos_pow_of_pos k (by decide : 0 < 2)).ne', markSpans_state _ _ b hb]
    cases k with
    | zero =>
      rw [show 2 ^ 0 >>> 1 = 0 from rfl, fillGroup_zero]
      refine ⟨by simp, by simp, fun i t => ?_⟩
      rw [testBit_mark, show min (0 + 1) (b :: bs).length = 0 + 1 by simp, exists_lt_succ_iff']
      simp
    | succ k =>
      have hshift : 2 ^ (k + 1) >>> 1 = 2 ^ k := by
        rw [Nat.shiftRight_eq_div_pow, Nat.pow_succ, Nat.pow_one, Nat.mul_div_cancel _ (by decide)]
      obtain ⟨h1, h2, h3⟩ := fillGroup_spec nchars offset bs k _ hbs
      rw [hshift]
      refine ⟨?_, by rw [h2]; rfl, fun i t => ?_⟩
      · rw [h1, List.length_cons, Nat.add_min_add_right, List.range_succ_eq_map, List.map_cons,
          List.map_map]
        simp [Function.comp_def, Nat.add_sub_add_right]
      · rw [h3, testBit_mark, List.length_cons, Nat.add_min_add_right, exists_lt_succ_iff']
        simp only [List.getD_cons_zero, List.getD_cons_succ, Nat.sub_zero, Nat.add_sub_add_right]
        constructor
        · rintro ((h | ⟨rfl, hm⟩) | h)
          · exact .inl h
          · exact .inr (.inl ⟨rfl, hm⟩)
          · exact .inr (.inr h)
        · rintro (h | ⟨rfl, hm⟩ | h)
          · exact .inl (.inl h)
          · exact .inl (.inr ⟨rfl, hm⟩)
          · exact .inr h

theorem genGroups_spec (nchars : Nat) :
    ∀ (bmidx : Nat) (elems : Nat → Nat) (bs : List CodeBmState), (∀ b ∈ bs, Increasing b.span) →
      (genGroups nchars bmidx elems bs).1 =
        (List.range bs.length).map (fun n => ((bmidx + n / 8) * nchars, 2 ^ (7 - n % 8))) ∧
      (∀ i < bmidx * nchars, (genGroups nchars bmidx elems bs).2 i = elems i) ∧
      ∀ g c t, g * 8 < bs.length → c < nchars →
        (((genGroups nchars bmidx elems bs).2 ((bmidx + g) * nchars + c)).testBit t = true ↔
          ∃ j < 8, g * 8 + j < bs.length ∧ t = 7 - j ∧
            marks nchars (bs.getD (g * 8 + j) default) c = true) := by
  intro bmidx elems bs hinc
  obtain ⟨len, hlen⟩ : ∃ len, bs.length = len := ⟨_, rfl⟩
  induction len using Nat.strong_induction_on generalizing bmidx elems bs with
  | _ len ih =>
  cases bs with
  | nil => simp [genGroups]
  | cons b bs =>
  rw [genGroups]
  obtain ⟨h1, h2, h3⟩ := fillGroup_spec nchars (bmidx * nchars) (b :: bs) 7 (fun _ => 0) hinc
  generalize fillGroup nchars (bmidx * nchars) 0x80 (fun _ => 0) (b :: bs) = G at h1 h2 h3 ⊢
  obtain ⟨G1, Gt, Gr⟩ := G
  simp only at h1 h2 h3 ⊢
  subst h1 h2
  have hlt : ((b :: bs).drop (7 + 1)).length < len := by simp [← hlen]; omega
  obtain ⟨r1, r2, r3⟩ := ih _ hlt (bmidx + 1)
    (fun i => if bmidx * nchars ≤ i ∧ i < bmidx * nchars + nchars then Gt (i - bmidx * nchars) else elems i)
    _ (fun b' hb' => hinc b' (List.mem_of_mem_drop hb')) rfl
  have hframe : ∀ c < nchars, (genGroups nchars (bmidx + 1)
      (fun i => if bmidx * nchars ≤ i ∧ i < bmidx * nchars + nchars then Gt (i - bmidx * nchars) else elems i)
      ((b :: bs).drop (7 + 1))).2 (bmidx * nchars + c) = Gt c := fun c hc => by
    rw [r2 _ (by rw [Nat.add_mul, Nat.one_mul]; omega)]
    simp [hc]
  refine ⟨?_, fun i hi => ?_, fun g c t hg hc => ?_⟩
  · rw [r1, List.length_drop,
      show List.range (b :: bs).length = List.range (min (7 + 1) (b :: bs).length + ((b :: bs).length - (7 + 1)))
        by congr 1; omega, List.range_add, List.map_append, List.map_map]
    congr 1
    · refine List.map_congr_left fun n hn => ?_
      have hn : n < 8 := by simp at hn; omega
      simp [Nat.div_eq_of_lt hn, Nat.mod_eq_of_lt hn]
    · refine List.map_congr_left fun n hn => ?_
      have hn : 8 < (b :: bs).length := by simp at hn ⊢; omega
      simp only [Function.comp_apply, show min (7 + 1) (b :: bs).length = 8 by omega]
      rw [show (8 + n) / 8 = n / 8 + 1 by omega, show (8 + n) % 8 = n % 8 by omega,
        show bmidx + (n / 8 + 1) = bmidx + 1 + n / 8 by omega]
  · rw [r2 _ (by rw [Nat.add_mul, Nat.one_mul]; omega)]
    simp [show ¬bmidx * nchars ≤ i by omega]
  · cases g with
    | zero =>
      rw [show (bmidx + 0) * nchars + c = bmidx * nchars + c from rfl, hframe c hc, h3]
      simp only [Nat.zero_testBit, Bool.false_eq_true, false_or, Nat.zero_mul, Nat.zero_add]
      constructor
      · rintro ⟨j, hj, rest⟩
        exact ⟨j, by omega, by omega, rest⟩
      · rintro ⟨j, hj, hjl, rest⟩
        exact ⟨j, by omega, rest⟩
    | succ g =>
      have hg' : g * 8 < ((b :: bs).drop (7 + 1)).length := by simp at hg ⊢; omega
      rw [show bmidx + (g + 1) = bmidx + 1 + g by omega, r3 g c t hg' hc]
      simp only [List.getD_eq_getElem?_getD, List.getElem?_drop, List.length_drop]
      constructor
      · rintro ⟨j, hj, hjl, rest⟩
        exact ⟨j, hj, by omega, by rwa [show (g + 1) * 8 + j = 7 + 1 + (g * 8 + j) by omega]⟩
      · rintro ⟨j, hj, hjl, rest⟩
        exact ⟨j, hj, by omega, by rwa [show (g + 1) * 8 + j = 7 + 1 + (g * 8 + j) by omega] at rest⟩

theorem and_two_pow_ne_zero (x i : Nat) : x &&& 2 ^ i ≠ 0 ↔ x.testBit i = true := by
  rw [Nat.and_two_pow]
  cases x.testBit i <;> simp [Nat.pos_pow_of_pos]

theorem genBitmap_eq (bitmap : CodeBitmap) (hk : bitmap.states ≠ []) (hu : bitmap.used = true)
    (hinc : ∀ b ∈ bitmap.states, Increasing b.span) :
    genBitmap bitmap = some ((List.range bitmap.states.length).map fun n =>
        (n / 8 * bitmap.nchars, 2 ^ (7 - n % 8)),
      (List.range (bitmap.nchars * ((bitmap.states.length + 7) / 8))).map
        (genGroups bitmap.nchars 0 (fun _ => 0) bitmap.states).2) := by
  have h1 := (genGroups_spec bitmap.nchars 0 (fun _ => 0) bitmap.states hinc).1
  simp only [genBitmap, List.isEmpty_iff, hk, hu, Bool.not_true, Bool.or_false, decide_False,
    Bool.false_eq_true, if_false, h1, Nat.zero_add]
  rfl

theorem genBitmap_encodes (bitmap : CodeBitmap) (hk : bitmap.states ≠ []) (hu : bitmap.used = true)
    (hn : 0 < bitmap.nchars) (hinc : ∀ b ∈ bitmap.states, Increasing b.span) :
    ∃ pairs elems, genBitmap bitmap = some (pairs, elems) ∧
      pairs.length = bitmap.states.length ∧ pairs.Nodup ∧
      elems.length = bitmap.nchars * ((bitmap.states.length + 7) / 8) ∧
      ∀ n < bitmap.states.length,
        (∃ j < 8, (pairs.getD n (0, 0)).2 = 2 ^ j) ∧ bitmap.nchars ∣ (pairs.getD n (0, 0)).1 ∧
        (pairs.getD n (0, 0)).1 + bitmap.nchars ≤ elems.length ∧
        ∀ c < bitmap.nchars,
          (elems.getD ((pairs.getD n (0, 0)).1 + c) 0 &&& (pairs.getD n (0, 0)).2 ≠ 0 ↔
            spanDest (bitmap.states.getD n default).span c = some (bitmap.states.getD n default).state) ∧
          ∀ (env : Env) (m : Mem), env.yybm = (elems.getD · 0) → m.get .yych = some (c : Int) →
            (Cond.bitmap (pairs.getD n (0, 0)).1 (pairs.getD n (0, 0)).2).eval env m =
              (decide (spanDest (bitmap.states.getD n default).span c =
                some (bitmap.states.getD n default).state), m) := by
  obtain ⟨-, -, hbits⟩ := genGroups_spec bitmap.nchars 0 (fun _ => 0) bitmap.states hinc
  set k := bitmap.states.length
  set nchars := bitmap.nchars
  set arr := (genGroups nchars 0 (fun _ => 0) bitmap.states).2
  have hgen := genBitmap_eq bitmap hk hu hinc
  refine ⟨_, _, hgen, by simp, ?_, by simp, fun n hnk => ?_⟩
  · refine (List.nodup_range k).map_on fun x _ y _ hxy => ?_
    simp only [Prod.mk.injEq] at hxy
    have hdiv := Nat.eq_of_mul_eq_mul_right hn hxy.1
    have hmod := Nat.pow_right_injective (le_refl 2) hxy.2
    omega
  have hp : ((List.range k).map fun n => (n / 8 * nchars, 2 ^ (7 - n % 8))).getD n (0, 0) =
      (n / 8 * nchars, 2 ^ (7 - n % 8)) := by
    simp [List.getD_eq_getElem?_getD, hnk]
  have hlt : n / 8 * nchars + nchars ≤ nchars * ((k + 7) / 8) := by
    rw [Nat.mul_comm nchars, ← Nat.succ_mul]
    exact Nat.mul_le_mul_right _ (by omega)
  rw [hp]
  refine ⟨⟨7 - n % 8, by omega, rfl⟩, Nat.dvd_mul_left _ _, by simpa using hlt, fun c hc => ?_⟩
  have helem : ((List.range (nchars * ((k + 7) / 8))).map arr).getD (n / 8 * nchars + c) 0 =
      arr ((0 + n / 8) * nchars + c) := by
    simp [List.getD_eq_getElem?_getD, show n / 8 * nchars + c < nchars * ((k + 7) / 8) by omega]
  have hbit : arr ((0 + n / 8) * nchars + c) &&& 2 ^ (7 - n % 8) ≠ 0 ↔
      spanDest (bitmap.states.getD n default).span c = some (bitmap.states.getD n default).state := by
    rw [and_two_pow_ne_zero, hbits (n / 8) c _ (by omega) hc]
    constructor
    · rintro ⟨j, hj, -, ht, hm⟩
      rw [show n / 8 * 8 + j = n by omega] at hm
      simpa [marks, hc] using hm
    · intro h
      exact ⟨n % 8, Nat.mod_lt _ (by decide), by omega, rfl, by
        rw [show n / 8 * 8 + n % 8 = n by omega]; simpa [marks, hc] using h⟩
  refine ⟨helem ▸ hbit, fun env m henv hm => ?_⟩
  simp only [Cond.eval, hm, Option.any_some, Int.toNat_ofNat, henv, helem, Prod.mk.injEq, and_true]
  exact Bool.eq_iff_iff.2 (by simpa [bne_iff_ne] using hbit)

def twoStateBitmap : CodeBitmap :=
  { states := [⟨[⟨1, 5⟩, ⟨3, 6⟩, ⟨4, 5⟩], 5⟩, ⟨[⟨1, 6⟩, ⟨3, 7⟩, ⟨4, 6⟩], 7⟩], nchars := 4, used := true }

theorem genBitmap_encodes_two :
    twoStateBitmap.states ≠ [] ∧ twoStateBitmap.used = true ∧ 0 < twoStateBitmap.nchars ∧
    (∀ b ∈ twoStateBitmap.states, Increasing b.span) ∧
    ∃ pairs elems, genBitmap twoStateBitmap = some (pairs, elems) ∧ pairs.Nodup := by
  have h : ∀ b ∈ twoStateBitmap.states, Increasing b.span := by decide
  obtain ⟨pairs, elems, hgen, -, hnd, -⟩ := genBitmap_encodes twoStateBitmap (by decide) rfl (by decide) h
  exact ⟨by decide, rfl, by decide, h, pairs, elems, hgen, hnd⟩

def nineStatesNoChars : CodeBitmap := { states := List.replicate 9 ⟨[], 0⟩, nchars := 0, used := true }

theorem genBitmap_no_chars_shares_pair :
    ∃ pairs elems, genBitmap nineStatesNoChars = some (pairs, elems) ∧
      pairs.length = 9 ∧ pairs.getD 0 (0, 0) = (0, 0x80) ∧ pairs.getD 8 (0, 0) = (0, 0x80) :=
  ⟨_, _, genBitmap_eq nineStatesNoChars (by decide) rfl (by decide), rfl, rfl, rfl⟩

end Re2cCodegen.Bitmap
