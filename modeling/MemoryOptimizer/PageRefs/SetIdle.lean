import Mathlib.Order.Monotone.Basic
import Mathlib.Tactic.Ring
import MemoryOptimizer.Lib.Words

/-!
# Marking pages idle

`setidlemap` fills a part of the idle bitmap with ones. Every `write` offers the whole
buffer, whatever is left of the range, and the number of bytes that it accepted is
subtracted from the size that is left, until that is zero or the bitmap ends. An idle
bitmap is its length and the way it accepts writes; the bits are those of the pages, eight
pages in a byte.

* `accepted` — the number of bytes that the first writes accept.
* `Fits` — when the writes end where the range ends, or the bitmap does.
* `setidlemap_marks_iff` — they mark exactly the pages of the range if and only if that
  is so.
-/

namespace MemoryOptimizer

namespace PageRefs

/-! ### The bitmap -/

/-- The file of the idle bitmap, with `size` bytes. A `write` of `offered` bytes at `pos`
accepts some of them: at least a word and whole words only, up to the end of the file. -/
structure Bitmap where
  size : ℕ
  accept : ℕ → ℕ → ℕ
  dvd_accept : ∀ pos offered, 8 ∣ accept pos offered
  accept_le : ∀ pos offered, accept pos offered ≤ offered
  le_accept : ∀ pos offered, 8 ∣ pos → pos < size → 8 ≤ offered → 8 ≤ accept pos offered
  accept_end : ∀ pos offered, pos < size → pos + accept pos offered ≤ size

/-- `write`; none is the error `ENXIO`. -/
def Bitmap.write (dev : Bitmap) (pos offered : ℕ) : Option ℕ :=
  if dev.size ≤ pos then none else some (dev.accept pos offered)

/-! ### `setidlemap` -/

/-- `g_setidle_bufsize` as `main` computes it, with `unsigned int bufsize`. -/
def setidleBufsize (pageShift size : ℕ) : ℕ :=
  min (uint (size / (2 ^ pageShift * 8))) (2 ^ 20)

/-- `idle_shift`. -/
def idleShift (pageShift : ℕ) : ℕ := pageShift + 3

/-- The size that is left, the position in the file, and the pages marked so far. -/
structure SetIdle where
  size : ℕ
  pos : ℕ
  idle : ℕ → Bool

/-- The pages whose bits `write` sets. -/
def mark (idle : ℕ → Bool) (pos len : ℕ) (page : ℕ) : Bool :=
  idle page || (8 * pos ≤ page && page < 8 * (pos + len))

/-- The loop of `setidlemap`; none where it has not ended. -/
def setidleLoop (dev : Bitmap) (pageShift bufsize : ℕ) : ℕ → SetIdle → Option SetIdle
  | 0, _ => none
  | fuel + 1, s =>
      if s.size = 0 then some s
      else
        match dev.write s.pos bufsize with
        | none => some s
        | some len =>
            setidleLoop dev pageShift bufsize fuel
              { size := usub s.size (ulong (len <<< idleShift pageShift))
                pos := s.pos + len
                idle := mark s.idle s.pos len }

/-- `setidlemap`. -/
def setidlemap (dev : Bitmap) (pageShift bufsize fuel offset size : ℕ) : Option SetIdle :=
  setidleLoop dev pageShift bufsize fuel
    { size := size, pos := offset >>> idleShift pageShift, idle := fun _ => false }

/-- `setidlemap` ends, and marks those pages of the range that the bitmap has, and no other
ones. -/
def Marks (dev : Bitmap) (pageShift offset size : ℕ) : Prop :=
  ∃ fuel s, setidlemap dev pageShift (setidleBufsize pageShift size) fuel offset size = some s ∧
    (∀ page, s.idle page = true →
      offset ≤ page * 2 ^ pageShift ∧ page * 2 ^ pageShift < offset + size) ∧
    ∀ page, offset ≤ page * 2 ^ pageShift → page * 2 ^ pageShift < offset + size →
      page < 8 * dev.size → s.idle page = true

/-- The number of bytes that the first `k` writes from a position accept. -/
def accepted (dev : Bitmap) (start bufsize : ℕ) : ℕ → ℕ
  | 0 => 0
  | k + 1 =>
      accepted dev start bufsize k + dev.accept (start + accepted dev start bufsize k) bufsize

/-- The buffer has a size, if there is anything to write, and either the bitmap ends in the
range or some writes together accept exactly its bytes. -/
structure Fits (dev : Bitmap) (pageShift offset size : ℕ) : Prop where
  bufsize_pos : offset / 2 ^ idleShift pageShift < dev.size → 0 < setidleBufsize pageShift size
  ends : dev.size ≤ offset / 2 ^ idleShift pageShift + size / 2 ^ idleShift pageShift ∨
    ∃ k, accepted dev (offset / 2 ^ idleShift pageShift) (setidleBufsize pageShift size) k =
      size / 2 ^ idleShift pageShift

section Loop

variable {dev : Bitmap} {pageShift bufsize start bytes : ℕ}

theorem accepted_mono (dev : Bitmap) (start bufsize : ℕ) :
    Monotone (accepted dev start bufsize) :=
  monotone_nat_of_le_succ fun _ => Nat.le_add_right _ _

theorem dvd_accepted (dev : Bitmap) (start bufsize k : ℕ) : 8 ∣ accepted dev start bufsize k := by
  induction k with
  | zero => exact ⟨0, rfl⟩
  | succ k ih => exact Nat.dvd_add ih (dev.dvd_accept _ _)

/-- What the loop has after `k` writes, none of which has gone beyond the range of `bytes`
bytes. -/
structure After (dev : Bitmap) (pageShift bufsize start bytes k : ℕ) (s : SetIdle) : Prop where
  size_eq : s.size = (bytes - accepted dev start bufsize k) * 2 ^ idleShift pageShift
  pos_eq : s.pos = start + accepted dev start bufsize k
  idle_iff : ∀ page, s.idle page = true ↔
    8 * start ≤ page ∧ page < 8 * (start + accepted dev start bufsize k)

theorem after_start {size : ℕ} (hsize : size = bytes * 2 ^ idleShift pageShift) :
    After dev pageShift bufsize start bytes 0 ⟨size, start, fun _ => false⟩ where
  size_eq := hsize
  pos_eq := rfl
  idle_iff page := by simp [accepted]

/-- **One write** that does not go beyond the range. -/
theorem After.write {k : ℕ} {s : SetIdle} (h : After dev pageShift bufsize start bytes k s)
    (hbytes : bytes * 2 ^ idleShift pageShift < 2 ^ 64)
    (hle : accepted dev start bufsize (k + 1) ≤ bytes) :
    After dev pageShift bufsize start bytes (k + 1)
      { size := usub s.size (ulong (dev.accept s.pos bufsize <<< idleShift pageShift))
        pos := s.pos + dev.accept s.pos bufsize
        idle := mark s.idle s.pos (dev.accept s.pos bufsize) } := by
  have hnext : accepted dev start bufsize (k + 1) =
      accepted dev start bufsize k + dev.accept s.pos bufsize := by
    rw [h.pos_eq]
    rfl
  have hpow := Nat.two_pow_pos (idleShift pageShift)
  constructor
  · have hfits : dev.accept s.pos bufsize * 2 ^ idleShift pageShift ≤ s.size := by
      rw [h.size_eq]
      exact Nat.mul_le_mul_right _ (by omega)
    have hsize : s.size < 2 ^ 64 := by
      rw [h.size_eq]
      exact (Nat.mul_le_mul_right _ (Nat.sub_le _ _)).trans_lt hbytes
    dsimp only
    rw [Nat.shiftLeft_eq, ulong_of_lt (hfits.trans_lt hsize), usub_of_le hfits hsize, h.size_eq,
      ← Nat.sub_mul, hnext, Nat.sub_add_eq]
  · dsimp only
    rw [hnext, h.pos_eq, Nat.add_assoc]
  · intro page
    dsimp only
    rw [mark, Bool.or_eq_true, Bool.and_eq_true, decide_eq_true_eq, decide_eq_true_eq,
      h.idle_iff, hnext, h.pos_eq]
    omega

/-- **Termination inside the range.** Where the writes can not go beyond the range, the
loop ends with it or with the bitmap. -/
theorem setidleLoop_ends (hdvd : 8 ∣ start) (hbuf : start < dev.size → 8 ≤ bufsize)
    (hbytes : bytes * 2 ^ idleShift pageShift < 2 ^ 64)
    (hends : dev.size ≤ start + bytes ∨ ∃ k, accepted dev start bufsize k = bytes)
    {k : ℕ} {s : SetIdle} (h : After dev pageShift bufsize start bytes k s)
    (hle : accepted dev start bufsize k ≤ bytes) :
    ∃ fuel s' n, setidleLoop dev pageShift bufsize fuel s = some s' ∧
      After dev pageShift bufsize start bytes n s' ∧ accepted dev start bufsize n ≤ bytes ∧
      (accepted dev start bufsize n = bytes ∨
        dev.size ≤ start + accepted dev start bufsize n) := by
  induction hleft : dev.size - s.pos using Nat.strong_induction_on generalizing k s
  next left ih =>
  have hpow := Nat.two_pow_pos (idleShift pageShift)
  rcases hle.eq_or_lt with heq | hlt
  · -- nothing is left
    have hzero : s.size = 0 := by rw [h.size_eq, heq, Nat.sub_self, Nat.zero_mul]
    exact ⟨1, s, k, by rw [setidleLoop, if_pos hzero], h, hle, Or.inl heq⟩
  have hsize : s.size ≠ 0 := by
    rw [h.size_eq]
    exact (Nat.mul_pos (Nat.sub_pos_of_lt hlt) hpow).ne'
  by_cases hend : dev.size ≤ s.pos
  · -- the bitmap has ended
    refine ⟨1, s, k, ?_, h, hle, Or.inr (h.pos_eq ▸ hend)⟩
    rw [setidleLoop, if_neg hsize, Bitmap.write, if_pos hend]
  · have hpos : s.pos < dev.size := not_le.mp hend
    have hdvd' : 8 ∣ s.pos := by
      rw [h.pos_eq]
      exact Nat.dvd_add hdvd (dvd_accepted ..)
    have hstart : start < dev.size := by
      have := h.pos_eq
      omega
    have hprogress := dev.le_accept s.pos bufsize hdvd' hpos (hbuf hstart)
    have hnext : accepted dev start bufsize (k + 1) ≤ bytes := by
      rcases hends with hin | ⟨m, hm⟩
      · have hstop := dev.accept_end s.pos bufsize hpos
        rw [accepted, ← h.pos_eq]
        have := h.pos_eq
        omega
      · have hkm : k + 1 ≤ m := by
          by_contra hmk
          have := accepted_mono dev start bufsize (show m ≤ k by omega)
          omega
        exact hm ▸ accepted_mono dev start bufsize hkm
    obtain ⟨fuel, s', n, hrun, hafter⟩ :=
      ih _ (by dsimp only; omega) (h.write hbytes hnext) hnext rfl
    refine ⟨fuel + 1, s', n, ?_, hafter⟩
    rw [setidleLoop, if_neg hsize, Bitmap.write, if_neg hend]
    exact hrun

/-- A write that offers nothing is repeated forever. -/
theorem setidleLoop_stuck (fuel : ℕ) {s : SetIdle} (hsize : s.size ≠ 0) (hlt : s.size < 2 ^ 64)
    (hpos : s.pos < dev.size) : setidleLoop dev pageShift 0 fuel s = none := by
  induction fuel generalizing s with
  | zero => rfl
  | succ fuel ih =>
      have hnothing : dev.accept s.pos 0 = 0 := Nat.le_zero.mp (dev.accept_le _ _)
      have hsame : usub s.size (ulong (0 <<< idleShift pageShift)) = s.size := by
        rw [Nat.zero_shiftLeft]
        exact usub_of_le (Nat.zero_le _) hlt
      rw [setidleLoop, if_neg hsize, Bitmap.write, if_neg (not_le.mpr hpos), hnothing]
      dsimp only
      rw [hsame]
      exact ih hsize hlt hpos

/-- **Going beyond the range.** Where no number of writes ends with the range, and the
bitmap does not end in it, the first page behind the range is marked. -/
theorem setidleLoop_overshoots (hbytes : bytes * 2 ^ idleShift pageShift < 2 ^ 64)
    (hend : start + bytes < dev.size) (hne : ∀ k, accepted dev start bufsize k ≠ bytes)
    {fuel : ℕ} {s s' : SetIdle} (hrun : setidleLoop dev pageShift bufsize fuel s = some s')
    (h : s.idle (8 * (start + bytes)) = true ∨ ∃ k, accepted dev start bufsize k < bytes ∧
      After dev pageShift bufsize start bytes k s) :
    s'.idle (8 * (start + bytes)) = true := by
  induction fuel generalizing s with
  | zero => cases hrun
  | succ fuel ih =>
      rw [setidleLoop] at hrun
      split at hrun
      · next hsize =>
        cases hrun
        refine h.resolve_right ?_
        rintro ⟨k, hlt, hafter⟩
        rw [hafter.size_eq] at hsize
        have hpos := Nat.mul_pos (Nat.sub_pos_of_lt hlt) (Nat.two_pow_pos (idleShift pageShift))
        exact hpos.ne' hsize
      · split at hrun
        · next hwrite =>
          cases hrun
          refine h.resolve_right ?_
          rintro ⟨k, hlt, hafter⟩
          unfold Bitmap.write at hwrite
          split at hwrite
          · next hstop =>
            rw [hafter.pos_eq] at hstop
            omega
          · cases hwrite
        · next len hwrite =>
          have hlen : len = dev.accept s.pos bufsize := by
            unfold Bitmap.write at hwrite
            split at hwrite
            · cases hwrite
            · exact (Option.some_inj.mp hwrite).symm
          subst hlen
          refine ih hrun ?_
          rcases h with hidle | ⟨k, hlt, hafter⟩
          · refine Or.inl ?_
            dsimp only
            rw [mark, hidle, Bool.true_or]
          · have hnext : accepted dev start bufsize (k + 1) =
                accepted dev start bufsize k + dev.accept s.pos bufsize := by
              rw [hafter.pos_eq]
              rfl
            rcases lt_or_ge (accepted dev start bufsize (k + 1)) bytes with hin | hout
            · exact Or.inr ⟨k + 1, hin, hafter.write hbytes hin.le⟩
            · -- this write goes beyond the range
              have hover := lt_of_le_of_ne hout (hne (k + 1)).symm
              have hpos := hafter.pos_eq
              refine Or.inl ?_
              dsimp only
              rw [mark, Bool.or_eq_true, Bool.and_eq_true, decide_eq_true_eq, decide_eq_true_eq]
              omega

end Loop

/-! ### The range -/

section Range

variable {dev : Bitmap} {pageShift offset size : ℕ}

theorem idle_unit (pageShift : ℕ) : 2 ^ idleShift pageShift = 8 * 2 ^ pageShift := by
  rw [idleShift, Nat.pow_add]
  omega

/-- A number of pages that is a multiple of 64 has whole words of bits. -/
theorem exists_words {n : ℕ} (h : 64 * 2 ^ pageShift ∣ n) : ∃ words,
    n = 8 * words * 2 ^ idleShift pageShift ∧ n / 2 ^ idleShift pageShift = 8 * words := by
  obtain ⟨words, rfl⟩ := h
  have hn : 64 * 2 ^ pageShift * words = 8 * words * 2 ^ idleShift pageShift := by
    rw [idle_unit]
    ring
  exact ⟨words, hn, by rw [hn, Nat.mul_div_cancel _ (Nat.two_pow_pos _)]⟩

/-- The buffer has whole words. -/
theorem le_setidleBufsize (hsize : 64 * 2 ^ pageShift ∣ size)
    (hpos : 0 < setidleBufsize pageShift size) : 8 ≤ setidleBufsize pageShift size := by
  obtain ⟨words, -, hwords⟩ := exists_words hsize
  rw [idle_unit, Nat.mul_comm] at hwords
  unfold setidleBufsize uint at hpos ⊢
  rw [hwords] at hpos ⊢
  omega

theorem mem_range_iff {start bytes page : ℕ} (hoffset : offset = start * 2 ^ idleShift pageShift)
    (hsize : size = bytes * 2 ^ idleShift pageShift) :
    (offset ≤ page * 2 ^ pageShift ∧ page * 2 ^ pageShift < offset + size) ↔
      8 * start ≤ page ∧ page < 8 * (start + bytes) := by
  have hpow := Nat.two_pow_pos pageShift
  have hlow : offset = 8 * start * 2 ^ pageShift := by rw [hoffset, idle_unit]; ring
  have hhigh : offset + size = 8 * (start + bytes) * 2 ^ pageShift := by
    rw [hoffset, hsize, idle_unit]
    ring
  rw [hhigh, hlow, Nat.mul_le_mul_right_iff hpow, Nat.mul_lt_mul_right hpow]

theorem fits_of_marks (hoffset : 64 * 2 ^ pageShift ∣ offset) (hsize : 64 * 2 ^ pageShift ∣ size)
    (hpos : 0 < size) (hlt : size < 2 ^ 64) (h : Marks dev pageShift offset size) :
    Fits dev pageShift offset size := by
  obtain ⟨start, hstart, hdivStart⟩ := exists_words hoffset
  obtain ⟨bytes, hbytes, hdivBytes⟩ := exists_words hsize
  obtain ⟨fuel, s, hrun, honly, -⟩ := h
  unfold setidlemap at hrun
  rw [Nat.shiftRight_eq_div_pow, hdivStart] at hrun
  constructor
  · rw [hdivStart]
    intro hdev
    refine Nat.pos_of_ne_zero fun hzero => ?_
    rw [hzero, setidleLoop_stuck fuel hpos.ne' hlt hdev] at hrun
    cases hrun
  · rw [hdivStart, hdivBytes]
    by_contra hnot
    obtain ⟨hend, hne⟩ := not_or.mp hnot
    rw [not_exists] at hne
    have hzero : accepted dev (8 * start) (setidleBufsize pageShift size) 0 < 8 * bytes :=
      Nat.pos_of_ne_zero fun heq => hne 0 heq.symm
    have hbeyond := setidleLoop_overshoots (hbytes ▸ hlt) (not_le.mp hend) hne hrun
      (Or.inr ⟨0, hzero, after_start hbytes⟩)
    have hpage := (mem_range_iff hstart hbytes).mp (honly _ hbeyond)
    exact lt_irrefl _ hpage.2

theorem marks_of_fits (hoffset : 64 * 2 ^ pageShift ∣ offset) (hsize : 64 * 2 ^ pageShift ∣ size)
    (hlt : size < 2 ^ 64) (h : Fits dev pageShift offset size) :
    Marks dev pageShift offset size := by
  obtain ⟨start, hstart, hdivStart⟩ := exists_words hoffset
  obtain ⟨bytes, hbytes, hdivBytes⟩ := exists_words hsize
  obtain ⟨hbuf, hends⟩ := h
  rw [hdivStart] at hbuf hends
  rw [hdivBytes] at hends
  obtain ⟨fuel, s, n, hrun, hafter, hle, hstop⟩ := setidleLoop_ends ⟨start, rfl⟩
    (fun hdev => le_setidleBufsize hsize (hbuf hdev)) (hbytes ▸ hlt) hends
    (after_start hbytes) (Nat.zero_le _)
  refine ⟨fuel, s, ?_, fun page hpage => ?_, fun page hlow hhigh hexists => ?_⟩
  · unfold setidlemap
    rw [Nat.shiftRight_eq_div_pow, hdivStart]
    exact hrun
  · obtain ⟨hlow, hhigh⟩ := (hafter.idle_iff page).mp hpage
    exact (mem_range_iff hstart hbytes).mpr ⟨hlow, by omega⟩
  · obtain ⟨hlow, hhigh⟩ := (mem_range_iff hstart hbytes).mp ⟨hlow, hhigh⟩
    exact (hafter.idle_iff page).mpr ⟨hlow, by omega⟩

end Range

/-- Every offset and every size that are multiples of 64 pages, and every idle bitmap, also
with writes that accept only a part of the buffer: `setidlemap` ends and marks exactly the
pages of the range if and only if the buffer has a size and the writes come to the end of
the range, or the bitmap ends in it. -/
theorem setidlemap_marks_iff (dev : Bitmap) {pageShift offset size : ℕ}
    (hoffset : 64 * 2 ^ pageShift ∣ offset) (hsize : 64 * 2 ^ pageShift ∣ size) (hpos : 0 < size)
    (hlt : size < 2 ^ 64) :
    Marks dev pageShift offset size ↔ Fits dev pageShift offset size :=
  ⟨fits_of_marks hoffset hsize hpos hlt, marks_of_fits hoffset hsize hlt⟩

/-- A bitmap that accepts whole writes. -/
def wholeWrites (words : ℕ) : Bitmap where
  size := 8 * words
  accept pos offered := min (offered / 8 * 8) ((8 * words - pos) / 8 * 8)
  dvd_accept pos offered := by
    rcases min_cases (offered / 8 * 8) ((8 * words - pos) / 8 * 8) with h | h <;> omega
  accept_le pos offered := (min_le_left _ _).trans (Nat.div_mul_le_self _ _)
  le_accept pos offered hpos hlt hle := by omega
  accept_end pos offered hlt := by omega

/-- 128 pages of 4K in a bitmap of 256. -/
theorem setidlemap_marks_oneWrite : Marks (wholeWrites 4) 12 0 (128 * 4096) :=
  (setidlemap_marks_iff (wholeWrites 4) (by decide) (by decide) (by decide) (by decide)).mpr
    ⟨fun _ => by decide, Or.inr ⟨1, by decide⟩⟩

/-- One word more than the buffer holds: two writes of the whole buffer go beyond the range,
and the size that is left wraps. -/
theorem setidlemap_overshoots :
    ¬Marks (wholeWrites (2 ^ 18)) 12 0 ((2 ^ 20 + 8) * 2 ^ 15) := by
  intro h
  obtain ⟨-, hends⟩ := fits_of_marks (by decide) (by decide) (by decide) (by decide) h
  have hlater : ∀ k, accepted (wholeWrites (2 ^ 18)) 0 (2 ^ 20) (k + 2) = 2 ^ 21 := by
    intro k
    induction k with
    | zero => decide
    | succ k ih =>
        rw [accepted, ih]
        rfl
  rcases hends with hend | ⟨k, hk⟩
  · exact absurd hend (by decide)
  · rcases k with _ | _ | k
    · exact absurd hk (by decide)
    · exact absurd hk (by decide)
    · exact absurd ((hlater k).symm.trans hk) (by decide)

end PageRefs

end MemoryOptimizer
