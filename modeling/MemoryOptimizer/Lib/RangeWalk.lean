import MemoryOptimizer.Lib.Alignment

/-!
# Walking a range of addresses piece by piece

The loop of a page-table level:
`do { next = …; err = body(addr, next); if (err) break; } while (addr = next, addr != stop);`
with `addrEnd` for the kernel's `p?d_addr_end`, the end of the piece of a range
in one aligned block.

`walkRange_rule` carries an invariant `P` indexed by the address reached; where
the body fails, `Q` holds instead.  `walkRange_pieces` is the same rule with what
is known of each piece: it is a `Piece` of the whole range, and so is every piece
of a walk inside it at a smaller shift.
-/

namespace MemoryOptimizer

/-- `pgd_addr_end`, `p4d_addr_end`, `pud_addr_end` and `pmd_addr_end`. -/
def addrEnd (shift addr stop : ℕ) : ℕ :=
  let boundary := roundDown (ulong (addr + 2 ^ shift)) (2 ^ shift)
  if usub boundary 1 < usub stop 1 then boundary else stop

section Walk

variable {σ : Type*}

/-- The loop, with a bound on its iterations. -/
def rangeLoop (nextOf : ℕ → ℕ → ℕ) (body : σ → ℕ → ℕ → σ × ℕ) (stop : ℕ) : ℕ → σ → ℕ → σ × ℕ
  | 0, s, _ => (s, 0)
  | fuel + 1, s, addr =>
      let next := nextOf addr stop
      let r := body s addr next
      if r.2 ≠ 0 then r
      else if next = stop then r
      else rangeLoop nextOf body stop fuel r.1 next

/-- The loop from `addr` to `stop`; it has at most `stop - addr` iterations. -/
def walkRange (nextOf : ℕ → ℕ → ℕ) (body : σ → ℕ → ℕ → σ × ℕ) (s : σ) (addr stop : ℕ) : σ × ℕ :=
  rangeLoop nextOf body stop (stop - addr) s addr

variable {nextOf : ℕ → ℕ → ℕ} {body : σ → ℕ → ℕ → σ × ℕ} {P : ℕ → σ → Prop} {Q : σ → Prop}
  {addr stop : ℕ} {s : σ}

theorem rangeLoop_rule {fuel : ℕ} (hfuel : stop - addr ≤ fuel) (hlt : addr < stop) (h : P addr s)
    (step : ∀ a s, addr ≤ a → a < stop → P a s →
      a < nextOf a stop ∧ nextOf a stop ≤ stop ∧
      ((body s a (nextOf a stop)).2 = 0 → P (nextOf a stop) (body s a (nextOf a stop)).1) ∧
      ((body s a (nextOf a stop)).2 ≠ 0 → Q (body s a (nextOf a stop)).1)) :
    ((rangeLoop nextOf body stop fuel s addr).2 = 0 →
      P stop (rangeLoop nextOf body stop fuel s addr).1) ∧
    ((rangeLoop nextOf body stop fuel s addr).2 ≠ 0 →
      Q (rangeLoop nextOf body stop fuel s addr).1) := by
  induction fuel generalizing addr s with
  | zero => omega
  | succ fuel ih =>
      obtain ⟨hnext, hle, hP, hQ⟩ := step addr s le_rfl hlt h
      simp only [rangeLoop]
      by_cases herr : (body s addr (nextOf addr stop)).2 ≠ 0
      · rw [if_pos herr]
        exact ⟨fun h => absurd h herr, hQ⟩
      · rw [if_neg herr]
        have herr := not_not.mp herr
        by_cases hstop : nextOf addr stop = stop
        · rw [if_pos hstop]
          simp only [hstop] at hP herr ⊢
          exact ⟨hP, fun h => absurd herr h⟩
        · rw [if_neg hstop]
          exact ih (by omega) (lt_of_le_of_ne hle hstop) (hP herr)
            fun a s ha => step a s (hnext.le.trans ha)

variable (nextOf body) in
theorem walkRange_rule (hlt : addr < stop) (h : P addr s)
    (step : ∀ a s, addr ≤ a → a < stop → P a s →
      a < nextOf a stop ∧ nextOf a stop ≤ stop ∧
      ((body s a (nextOf a stop)).2 = 0 → P (nextOf a stop) (body s a (nextOf a stop)).1) ∧
      ((body s a (nextOf a stop)).2 ≠ 0 → Q (body s a (nextOf a stop)).1)) :
    ((walkRange nextOf body s addr stop).2 = 0 → P stop (walkRange nextOf body s addr stop).1) ∧
    ((walkRange nextOf body s addr stop).2 ≠ 0 → Q (walkRange nextOf body s addr stop).1) :=
  rangeLoop_rule le_rfl hlt h step

/-- A property that every call of the body keeps. -/
theorem walkRange_inv {I : σ → Prop} (h : I s)
    (step : ∀ s a next, I s → I (body s a next).1) : I (walkRange nextOf body s addr stop).1 := by
  unfold walkRange
  generalize stop - addr = fuel
  induction fuel generalizing addr s with
  | zero => exact h
  | succ fuel ih =>
      have hbody := step s addr (nextOf addr stop) h
      simp only [rangeLoop]
      split
      · exact hbody
      · split
        · exact hbody
        · exact ih hbody

end Walk

/-- The piece ends at the next boundary or at the end of the range. -/
theorem addrEnd_eq {shift addr stop : ℕ} (hshift : shift < 64) (hlt : addr < stop)
    (hstop : stop < 2 ^ 64) :
    addrEnd shift addr stop = min ((addr / 2 ^ shift + 1) * 2 ^ shift) stop := by
  have hpow := Nat.two_pow_pos shift
  obtain ⟨n, hn⟩ : 2 ^ shift ∣ 2 ^ 64 := Nat.pow_dvd_pow 2 hshift.le
  have hmul := Nat.div_mul_le_self addr (2 ^ shift)
  have hdiv : addr / 2 ^ shift < n := by
    rw [Nat.div_lt_iff_lt_mul hpow, Nat.mul_comm, ← hn]
    exact hlt.trans hstop
  have hle : (addr / 2 ^ shift + 1) * 2 ^ shift ≤ 2 ^ 64 := by
    rw [hn, Nat.mul_comm]
    exact Nat.mul_le_mul_left _ hdiv
  have hlow : addr < (addr / 2 ^ shift + 1) * 2 ^ shift :=
    (Nat.div_lt_iff_lt_mul hpow).mp (Nat.lt_succ_self _)
  have hadd : (addr / 2 ^ shift + 1) * 2 ^ shift = addr / 2 ^ shift * 2 ^ shift + 2 ^ shift :=
    Nat.succ_mul _ _
  unfold addrEnd
  rcases Nat.lt_or_eq_of_le hle with hlt64 | heq
  · have hroom : (addr / 2 ^ shift + 1) * 2 ^ shift + 2 ^ shift ≤ 2 ^ 64 := by
      rw [← Nat.succ_mul, hn, Nat.mul_comm (2 ^ shift)]
      refine Nat.mul_le_mul_right _ ?_
      rw [hn, Nat.mul_comm (2 ^ shift), Nat.mul_lt_mul_right hpow] at hlt64
      exact hlt64
    have hboundary : roundDown (ulong (addr + 2 ^ shift)) (2 ^ shift) =
        (addr / 2 ^ shift + 1) * 2 ^ shift := by
      rw [ulong_of_lt (by omega)]
      exact roundDown_eq_of_le (by omega) hshift.le (by omega) (by omega)
    simp only [hboundary]
    rw [usub_of_le (by omega) hlt64, usub_of_le (by omega) hstop]
    split <;> omega
  · -- the last block: the boundary wraps to 0
    have hboundary : roundDown (ulong (addr + 2 ^ shift)) (2 ^ shift) = 0 := by
      have hwrap : ulong (addr + 2 ^ shift) = addr + 2 ^ shift - 2 ^ 64 := by
        unfold ulong
        omega
      rw [hwrap]
      have := roundDown_eq_of_le (x := addr + 2 ^ shift - 2 ^ 64) (b := 0) (by omega) hshift.le
        (by omega) (by omega)
      simpa using this
    have hmax : ¬usub 0 1 < usub stop 1 := by
      rw [usub_of_le (by omega) hstop]
      unfold usub ulong
      omega
    simp only [hboundary, if_neg hmax]
    omega

/-! ### Pieces -/

/-- A piece of `[first, stop)` at a level: it lies in one block of that level, and
starts and ends at a boundary of it or at the ends of the range. -/
structure Piece (first stop shift a next : ℕ) : Prop where
  first_le : first ≤ a
  lt : a < next
  next_le : next ≤ stop
  start : a = first ∨ 2 ^ shift ∣ a
  last : next = stop ∨ 2 ^ shift ∣ next
  block : next ≤ (a / 2 ^ shift + 1) * 2 ^ shift

namespace Piece

variable {first stop shift a next : ℕ}

/-- A range of addresses is a piece of itself. -/
theorem whole (hlt : first < stop) (hstop : stop ≤ 2 ^ 64) : Piece first stop 64 first stop := by
  refine ⟨le_rfl, hlt, le_rfl, Or.inl rfl, Or.inl rfl, hstop.trans ?_⟩
  rw [Nat.add_mul, Nat.one_mul]
  exact Nat.le_add_left _ _

theorem lt_stop (piece : Piece first stop shift a next) : a < stop :=
  piece.lt.trans_le piece.next_le

theorem first_lt_next (piece : Piece first stop shift a next) : first < next :=
  piece.first_le.trans_lt piece.lt

/-- The addresses of a piece have the same index at its level. -/
theorem index_eq (piece : Piece first stop shift a next) {x : ℕ} (hax : a ≤ x) (hxn : x < next) :
    x >>> shift = a >>> shift := by
  rw [Nat.shiftRight_eq_div_pow, Nat.shiftRight_eq_div_pow]
  refine le_antisymm ?_ (Nat.div_le_div_right hax)
  exact Nat.lt_succ_iff.mp
    ((Nat.div_lt_iff_lt_mul (Nat.two_pow_pos shift)).mpr (hxn.trans_le piece.block))

/-- A piece starts at a multiple of what divides the start of the range and its
own blocks. -/
theorem dvd_start (piece : Piece first stop shift a next) {d : ℕ} (hfirst : d ∣ first)
    (hd : d ∣ 2 ^ shift) : d ∣ a := by
  rcases piece.start with h | h
  · exact h ▸ hfirst
  · exact hd.trans h

theorem dvd_next (piece : Piece first stop shift a next) {d : ℕ} (hstop : d ∣ stop)
    (hd : d ∣ 2 ^ shift) : d ∣ next := by
  rcases piece.last with h | h
  · exact h ▸ hstop
  · exact hd.trans h

/-- The end of the block of a piece is a bound on the piece, and its end unless
the range ends inside. -/
theorem block_eq (piece : Piece first stop shift a next) (hne : next ≠ stop) :
    (a / 2 ^ shift + 1) * 2 ^ shift = next := by
  have hpow := Nat.two_pow_pos shift
  obtain ⟨n, rfl⟩ := piece.last.resolve_left hne
  refine le_antisymm ?_ piece.block
  have hlt : a / 2 ^ shift < n := by
    rw [Nat.div_lt_iff_lt_mul hpow, Nat.mul_comm]
    exact piece.lt
  rw [Nat.mul_comm]
  exact Nat.mul_le_mul_left _ hlt

/-- A piece of a piece, at a smaller level. -/
theorem sub {big small e x : ℕ} (outer : Piece first stop big a e) (hle : small ≤ big)
    (hax : a ≤ x) (hxe : x < e) (hstart : x = a ∨ 2 ^ small ∣ x) :
    Piece first stop small x (min ((x / 2 ^ small + 1) * 2 ^ small) e) := by
  have hdvd : 2 ^ small ∣ 2 ^ big := Nat.pow_dvd_pow 2 hle
  have hlow : x < (x / 2 ^ small + 1) * 2 ^ small :=
    (Nat.div_lt_iff_lt_mul (Nat.two_pow_pos small)).mp (Nat.lt_succ_self _)
  refine ⟨outer.first_le.trans hax, lt_min hlow hxe, (min_le_right _ _).trans outer.next_le, ?_, ?_,
    min_le_left _ _⟩
  · rcases hstart with rfl | hstart
    · exact outer.start.imp_right hdvd.trans
    · exact Or.inr hstart
  · rcases min_choice ((x / 2 ^ small + 1) * 2 ^ small) e with h | h
    · rw [h]
      exact Or.inr (Nat.dvd_mul_left _ _)
    · rw [h]
      exact outer.last.imp_right hdvd.trans

end Piece

section Pieces

variable {σ : Type*}

/-- What a body that ends at `next` leaves behind: `P` there, or `Q` where it
fails. -/
def Post (P : ℕ → σ → Prop) (Q : σ → Prop) (next : ℕ) (r : σ × ℕ) : Prop :=
  (r.2 = 0 → P next r.1) ∧ (r.2 ≠ 0 → Q r.1)

variable {P : ℕ → σ → Prop} {Q : σ → Prop} {nextOf : ℕ → ℕ → ℕ} {body : σ → ℕ → ℕ → σ × ℕ}

theorem Post.ok {next : ℕ} {s : σ} (h : P next s) : Post P Q next (s, 0) :=
  ⟨fun _ => h, fun h => absurd rfl h⟩

/-- The walk of a piece at a smaller level, where the body gets the pieces of that
level. -/
theorem walkRange_pieces {first stop big small a e : ℕ} (outer : Piece first stop big a e)
    (hle : small ≤ big)
    (hnext : ∀ x, a ≤ x → x < e → (x = a ∨ 2 ^ small ∣ x) →
      nextOf x e = min ((x / 2 ^ small + 1) * 2 ^ small) e)
    (step : ∀ x next s, Piece first stop small x next → a ≤ x → next ≤ e → P x s →
      Post P Q next (body s x next))
    {s : σ} (h : P a s) : Post P Q e (walkRange nextOf body s a e) := by
  have hrule := walkRange_rule nextOf body (Q := Q)
    (P := fun x s => P x s ∧ (x = a ∨ x = e ∨ 2 ^ small ∣ x)) outer.lt ⟨h, Or.inl rfl⟩ ?_
  · exact ⟨fun h => (hrule.1 h).1, hrule.2⟩
  intro x s hax hxe ⟨hP, hstart⟩
  have hstart' : x = a ∨ 2 ^ small ∣ x := hstart.imp_right fun h => h.resolve_left hxe.ne
  have piece := outer.sub hle hax hxe hstart'
  rw [hnext x hax hxe hstart']
  obtain ⟨hok, herr⟩ := step x _ s piece hax (min_le_right _ _) hP
  refine ⟨piece.lt, min_le_right _ _, fun h => ⟨hok h, Or.inr ?_⟩, herr⟩
  rcases min_choice ((x / 2 ^ small + 1) * 2 ^ small) e with h | h
  · rw [h]
    exact Or.inr (Nat.dvd_mul_left _ _)
  · exact Or.inl h

/-- The walk of a table of a level, with `addrEnd`. -/
theorem walkRange_addrEnd {first stop big small a e : ℕ} (outer : Piece first stop big a e)
    (hle : small ≤ big) (hsmall : small < 64) (hstop : stop < 2 ^ 64)
    (step : ∀ x next s, Piece first stop small x next → P x s → Post P Q next (body s x next))
    {s : σ} (h : P a s) : Post P Q e (walkRange (addrEnd small) body s a e) :=
  walkRange_pieces outer hle
    (fun _ _ hxe _ => addrEnd_eq hsmall hxe (outer.next_le.trans_lt hstop))
    (fun x next s piece _ _ => step x next s piece) h

/-- The same with a property that every call of the body keeps. -/
theorem walkRange_addrEnd_inv {first stop big small a e : ℕ} (outer : Piece first stop big a e)
    (hle : small ≤ big) (hsmall : small < 64) (hstop : stop < 2 ^ 64) {I : σ → Prop}
    (inv : ∀ s x next, I s → I (body s x next).1)
    (step : ∀ x next s, Piece first stop small x next → a ≤ x → next ≤ e → I s → P x s →
      Post P Q next (body s x next))
    {s : σ} (h : P a s) (hs : I s) : Post P Q e (walkRange (addrEnd small) body s a e) := by
  have hrule : Post (fun x s => P x s ∧ I s) Q e (walkRange (addrEnd small) body s a e) := by
    refine walkRange_pieces outer hle
      (fun _ _ hxe _ => addrEnd_eq hsmall hxe (outer.next_le.trans_lt hstop))
      (fun x next s piece hax hnext ⟨hP, hI⟩ => ?_) ⟨h, hs⟩
    have hstep := step x next s piece hax hnext hI hP
    exact ⟨fun hret => ⟨hstep.1 hret, inv s x next hI⟩, hstep.2⟩
  exact ⟨fun hret => (hrule.1 hret).1, hrule.2⟩

end Pieces

/-! ### Coming to an end

`walkRange` counts its iterations. `RangeEnds` is the loop without a count: it holds of
the result just when the loop comes to one. -/

section Ends

variable {σ : Type*}

/-- The loop from `addr` ends, with a result. `Inner` says of a call of the body that the
loops in it end. -/
inductive RangeEnds (nextOf : ℕ → ℕ → ℕ) (body : σ → ℕ → ℕ → σ × ℕ) (Inner : σ → ℕ → ℕ → Prop)
    (stop : ℕ) : σ → ℕ → σ × ℕ → Prop
  | failed {s : σ} {addr : ℕ} (inner : Inner s addr (nextOf addr stop))
      (err : (body s addr (nextOf addr stop)).2 ≠ 0) :
      RangeEnds nextOf body Inner stop s addr (body s addr (nextOf addr stop))
  | last {s : σ} {addr : ℕ} (inner : Inner s addr (nextOf addr stop))
      (ok : (body s addr (nextOf addr stop)).2 = 0) (stop_eq : nextOf addr stop = stop) :
      RangeEnds nextOf body Inner stop s addr (body s addr (nextOf addr stop))
  | next {s : σ} {addr : ℕ} {r : σ × ℕ} (inner : Inner s addr (nextOf addr stop))
      (ok : (body s addr (nextOf addr stop)).2 = 0) (stop_ne : nextOf addr stop ≠ stop)
      (rest : RangeEnds nextOf body Inner stop (body s addr (nextOf addr stop)).1
        (nextOf addr stop) r) :
      RangeEnds nextOf body Inner stop s addr r

variable {nextOf : ℕ → ℕ → ℕ} {body : σ → ℕ → ℕ → σ × ℕ} {Inner : σ → ℕ → ℕ → Prop} {addr stop : ℕ}

/-- A loop whose address rises up to its end has as many iterations as `walkRange` counts. -/
theorem walkRange_ends {I : ℕ → Prop} (hlt : addr < stop) (h : I addr)
    (step : ∀ a, a < stop → I a → a < nextOf a stop ∧ nextOf a stop ≤ stop ∧
      (nextOf a stop ≠ stop → I (nextOf a stop)) ∧ ∀ s, Inner s a (nextOf a stop)) (s : σ) :
    RangeEnds nextOf body Inner stop s addr (walkRange nextOf body s addr stop) := by
  have hrun : ∀ fuel addr s, stop - addr ≤ fuel → addr < stop → I addr →
      RangeEnds nextOf body Inner stop s addr (rangeLoop nextOf body stop fuel s addr) := by
    intro fuel
    induction fuel with
    | zero => exact fun addr s hfuel hlt => absurd hlt (by omega)
    | succ fuel ih =>
        intro addr s hfuel hlt h
        obtain ⟨hnext, hle, hI, hinner⟩ := step addr hlt h
        rw [rangeLoop]
        by_cases herr : (body s addr (nextOf addr stop)).2 ≠ 0
        · rw [if_pos herr]
          exact .failed (hinner s) herr
        · rw [if_neg herr]
          by_cases hstop : nextOf addr stop = stop
          · rw [if_pos hstop]
            exact .last (hinner s) (not_not.mp herr) hstop
          · rw [if_neg hstop]
            exact .next (hinner s) (not_not.mp herr) hstop
              (ih _ _ (by omega) (lt_of_le_of_ne hle hstop) (hI hstop))
  exact hrun _ addr s le_rfl hlt h

/-- The same for the walk of a piece at a smaller level. -/
theorem walkRange_ends_pieces {first stop big small a e : ℕ} (outer : Piece first stop big a e)
    (hle : small ≤ big)
    (hnext : ∀ x, a ≤ x → x < e → (x = a ∨ 2 ^ small ∣ x) →
      nextOf x e = min ((x / 2 ^ small + 1) * 2 ^ small) e)
    (inner : ∀ x next s, Piece first stop small x next → Inner s x next) (s : σ) :
    RangeEnds nextOf body Inner e s a (walkRange nextOf body s a e) := by
  refine walkRange_ends (I := fun x => a ≤ x ∧ (x = a ∨ 2 ^ small ∣ x)) outer.lt
    ⟨le_rfl, Or.inl rfl⟩ (fun x hxe ⟨hax, hstart⟩ => ?_) s
  have piece := outer.sub hle hax hxe hstart
  rw [hnext x hax hxe hstart]
  refine ⟨piece.lt, min_le_right _ _, fun hne => ⟨hax.trans piece.lt.le, Or.inr ?_⟩,
    fun s => inner x _ s piece⟩
  rw [(min_choice _ _).resolve_right hne]
  exact Nat.dvd_mul_left _ _

/-- With `addrEnd`. -/
theorem walkRange_ends_addrEnd {first stop big small a e : ℕ} (outer : Piece first stop big a e)
    (hle : small ≤ big) (hsmall : small < 64) (hstop : stop < 2 ^ 64)
    (inner : ∀ x next s, Piece first stop small x next → Inner s x next) (s : σ) :
    RangeEnds (addrEnd small) body Inner e s a (walkRange (addrEnd small) body s a e) :=
  walkRange_ends_pieces outer hle
    (fun _ _ hxe _ => addrEnd_eq hsmall hxe (outer.next_le.trans_lt hstop)) inner s

end Ends

end MemoryOptimizer
