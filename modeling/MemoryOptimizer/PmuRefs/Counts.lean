import MemoryOptimizer.PmuRefs.HotList
import MemoryOptimizer.PmuRefs.Sketch

/-!
# Counts inside an interval

Between agings the cells of `cms` and the counts of the items only go up, unless
one of them is a 16-bit counter at its largest value: then `++` takes it to 0.

* `CountsFit` — an update of a page meets no counter at its largest value.
* `Sound.update` — one update, in either mode.
* `counts_neverFall` — two updates of a page with any others between them.
* `counts_fall` — 65536 samples of one page.
-/

namespace MemoryOptimizer.PmuRefs

/-! ### The cells -/

/-- No cell of the page is at `CMS_COUNT_MAX`. -/
def CellsFit (cms : Cms) (key : Key) : Prop :=
  ∀ i < cms.depth, cell cms i (rowHash cms.widthMask i key) < 0xffff

instance (cms : Cms) (key : Key) : Decidable (CellsFit cms key) :=
  inferInstanceAs (Decidable (∀ i < cms.depth, cell cms i (rowHash cms.widthMask i key) < 0xffff))

section Cells

variable {depth widthOrder : ℕ} {cms : Cms} {key : Key}

theorem le_cmsUpdate_iff (h : Shaped depth widthOrder cms) (key : Key) (r : ℕ) :
    r ≤ (cmsUpdate cms key.1 key.2).2.1 ↔
      r ≤ 0xffff ∧ ∀ j < depth, r ≤ count16 (cell cms j (rowHash cms.widthMask j key) + 1) := by
  rw [cmsUpdate_eq h]
  exact (cmsUpdateRows_spec h key le_rfl).2.2 r

theorem cell_cmsUpdate (h : Shaped depth widthOrder cms) (key : Key) (j b : ℕ) :
    cell (cmsUpdate cms key.1 key.2).1 j b =
      if j < depth ∧ b = rowHash cms.widthMask j key then count16 (cell cms j b + 1)
      else cell cms j b := by
  rw [cmsUpdate_eq h]
  exact (cmsUpdateRows_spec h key le_rfl).2.1 j b

theorem CellsFit.cell_le (hfit : CellsFit cms key) (h : Shaped depth widthOrder cms) (j b : ℕ) :
    cell cms j b ≤ cell (cmsUpdate cms key.1 key.2).1 j b := by
  rw [cell_cmsUpdate h]
  split
  · next hcell =>
    have hlt := hfit j (h.depth_eq ▸ hcell.1)
    rw [← hcell.2] at hlt
    rw [count16, Nat.mod_eq_of_lt (by omega)]
    exact Nat.le_succ _
  · exact le_rfl

/-- The value that `cms_update` computes follows the cells. -/
theorem CellsFit.value_le {cms' : Cms} (hfit : CellsFit cms' key) (h : Shaped depth widthOrder cms)
    (h' : Shaped depth widthOrder cms') (hle : ∀ j b, cell cms j b ≤ cell cms' j b) :
    (cmsUpdate cms key.1 key.2).2.1 ≤ (cmsUpdate cms' key.1 key.2).2.1 := by
  obtain ⟨hmax, hcells⟩ := (le_cmsUpdate_iff h key _).mp le_rfl
  refine (le_cmsUpdate_iff h' key _).mpr ⟨hmax, fun j hj => ?_⟩
  have hlt := hfit j (h'.depth_eq ▸ hj)
  have hcell := hcells j hj
  have hmod : count16 (cell cms j (rowHash cms.widthMask j key) + 1) ≤
      cell cms j (rowHash cms.widthMask j key) + 1 := Nat.mod_le _ _
  have hgrown := hle j (rowHash cms.widthMask j key)
  rw [h.widthMask_eq] at hcell hmod hgrown
  rw [h'.widthMask_eq] at hlt ⊢
  rw [count16, Nat.mod_eq_of_lt (by omega)]
  omega

end Cells

/-! ### The items -/

/-- The count in the item of a page. -/
def storedCount (a : Achash) (key : Key) : Option ℕ := a.entries.lookup key

theorem lookup_eq_none {key : Key} {l : List (Key × ℕ)} :
    l.lookup key = none ↔ key ∉ l.map Prod.fst := by
  rw [List.lookup_eq_none_iff, List.mem_map]
  constructor
  · rintro h ⟨e, he, rfl⟩
    simpa using h e he
  · intro h e he
    simpa using fun heq : key = e.1 => h ⟨e, he, heq.symm⟩

theorem lookup_cons_eq (k : Key) (e : Key × ℕ) (l : List (Key × ℕ)) :
    (e :: l).lookup k = if k = e.1 then some e.2 else l.lookup k := by
  rw [List.lookup_cons]
  by_cases hk : k = e.1
  · rw [if_pos hk, beq_iff_eq.mpr hk]
  · rw [if_neg hk, beq_eq_false_iff_ne.mpr hk]

theorem lookup_eq_some {key : Key} {c : ℕ} {l : List (Key × ℕ)} (hnodup : (l.map Prod.fst).Nodup)
    (hmem : (key, c) ∈ l) : l.lookup key = some c := by
  induction l with
  | nil => cases hmem
  | cons e l ih =>
      rw [List.map_cons, List.nodup_cons] at hnodup
      rw [lookup_cons_eq]
      rcases List.mem_cons.mp hmem with rfl | hmem
      · rw [if_pos rfl]
      · rw [if_neg fun hkey : key = e.1 => hnodup.1 (hkey ▸ List.mem_map_of_mem hmem)]
        exact ih hnodup.2 hmem

/-- Counting the page that is there changes its entry only. -/
theorem lookup_map_count (key k : Key) (l : List (Key × ℕ)) :
    (l.map fun e => if e.1 = key then (e.1, count16 (e.2 + 1)) else e).lookup k =
      if k = key then (l.lookup key).map fun c => count16 (c + 1) else l.lookup k := by
  induction l with
  | nil => simp
  | cons e l ih =>
      rw [List.map_cons, lookup_cons_eq, lookup_cons_eq, lookup_cons_eq, ih]
      by_cases he : e.1 = key
      · simp only [he, if_true, Option.map_some]
        split <;> rfl
      · rw [if_neg he, if_neg (Ne.symm he)]
        by_cases hk : k = key
        · rw [hk, if_neg (Ne.symm he), if_pos rfl, if_pos rfl]
        · rw [if_neg hk, if_neg hk]

theorem lookup_record16 (initial : ℕ) (key k : Key) (l : List (Key × ℕ)) :
    (record16 initial key l).lookup k =
      if k = key then some ((l.lookup key).elim (count16 initial) fun c => count16 (c + 1))
      else l.lookup k := by
  unfold record16
  split
  · next hmem =>
    rw [lookup_map_count]
    cases hlookup : l.lookup key with
    | none => exact absurd hmem (lookup_eq_none.mp hlookup)
    | some c => rfl
  · next hmem =>
    rw [List.lookup_append, lookup_cons_eq, List.lookup_nil, lookup_eq_none.mpr hmem]
    by_cases hk : k = key
    · rw [if_pos hk, if_pos hk, hk, lookup_eq_none.mpr hmem]
      rfl
    · rw [if_neg hk, if_neg hk, Option.or_none]

/-- No count of the page is at its largest value: neither in a cell, where the
sketch is used, nor in its item. -/
structure CountsFit (s : Cmsk) (key : Key) : Prop where
  cells : s.achash.hashMode = false → CellsFit s.cms key
  stored : ∀ c, storedCount s.achash key = some c → c < 0xffff

instance (s : Cmsk) (key : Key) : Decidable (CountsFit s key) :=
  decidable_of_iff ((s.achash.hashMode = false → CellsFit s.cms key) ∧
    ∀ c ∈ storedCount s.achash key, c < 0xffff) ⟨fun h => ⟨h.1, h.2⟩, fun h => ⟨h.1, h.2⟩⟩

/-! ### One update -/

/-- What holds between the calls: the sketch has its size, and the table its
representation invariant. -/
structure Sound (depth widthOrder : ℕ) (s : Cmsk) : Prop where
  shaped : Shaped depth widthOrder s.cms
  table : Table (bucketOf s.achash.hashMode s.achash.mask s.cms) s.achash

/-- No cell and no item counts less in the second state than in the first one. -/
structure CountsLe (s s' : Cmsk) : Prop where
  cell_le : ∀ j b, cell s.cms j b ≤ cell s'.cms j b
  stored_le : ∀ key c, storedCount s.achash key = some c →
    ∃ c', storedCount s'.achash key = some c' ∧ c ≤ c'

theorem CountsLe.refl (s : Cmsk) : CountsLe s s :=
  ⟨fun _ _ => le_rfl, fun _ c hc => ⟨c, hc, le_rfl⟩⟩

theorem CountsLe.trans {s t u : Cmsk} (h : CountsLe s t) (h' : CountsLe t u) : CountsLe s u := by
  refine ⟨fun j b => (h.cell_le j b).trans (h'.cell_le j b), fun key c hc => ?_⟩
  obtain ⟨c₁, hc₁, hle₁⟩ := h.stored_le key c hc
  obtain ⟨c₂, hc₂, hle₂⟩ := h'.stored_le key c₁ hc₁
  exact ⟨c₂, hc₂, hle₁.trans hle₂⟩

section Runs

variable {depth widthOrder : ℕ} {s s' : Cmsk}

theorem Sound.init {agingHalf hashMode : Bool} {threshold sizeOrder histMax : ℕ}
    (h : cmskInit agingHalf hashMode widthOrder depth threshold sizeOrder histMax = some s) :
    Sound depth widthOrder s ∧ s.achash.len < s.achash.size := by
  have fresh := cmskInit_fresh h
  exact ⟨⟨fresh.cms_eq ▸ cmsInit_shaped depth widthOrder, fresh.table⟩, fresh.room⟩

/-- Clearing and aging need no more than the sizes, which a sort leaves alone. -/
theorem sound_clear (hshaped : Shaped depth widthOrder s.cms) (sized : Sized s.achash) :
    Sound depth widthOrder (cmskClear s) := by
  refine ⟨?_, achashClear_table sized⟩
  unfold cmskClear
  cases s.achash.hashMode with
  | true => exact ⟨hshaped.1, hshaped.2, hshaped.3, hshaped.4, hshaped.5⟩
  | false => exact hshaped.map _ _

theorem sound_age (hshaped : Shaped depth widthOrder s.cms) (sized : Sized s.achash) :
    Sound depth widthOrder (cmskAge s) := by
  unfold cmskAge
  split
  · exact ⟨hshaped.map _ _, achashClear_table sized⟩
  · exact sound_clear hshaped sized

/-- The sample in the sketch. -/
theorem Sound.sampled (h : Sound depth widthOrder s) (key : Key) :
    let r := sample s.achash.hashMode s.achash.threshold s.cms key
    Shaped depth widthOrder r.1 ∧
      (CountsFit s key → ∀ j b, cell s.cms j b ≤ cell r.1 j b) := by
  unfold PmuRefs.sample
  cases hmode : s.achash.hashMode with
  | true =>
      exact ⟨⟨h.shaped.1, h.shaped.2, h.shaped.3, h.shaped.4, h.shaped.5⟩,
        fun _ j b => le_rfl⟩
  | false => exact ⟨cmsUpdate_shaped h.shaped key, fun hfit => (hfit.cells hmode).cell_le h.shaped⟩

/-- The count of a sample in the table. -/
theorem storedCount_record16 {a a' : Achash} {key : Key} {initial : ℕ}
    (hentries : a'.entries = record16 initial key a.entries)
    (hfit : ∀ c, storedCount a key = some c → c < 0xffff) (k : Key) (c : ℕ)
    (hc : storedCount a k = some c) : ∃ c', storedCount a' k = some c' ∧ c ≤ c' := by
  unfold storedCount at hc ⊢
  rw [hentries, lookup_record16]
  by_cases hk : k = key
  · have hlt := hfit c (hk ▸ hc)
    rw [if_pos hk, ← hk, hc]
    exact ⟨c + 1, congrArg some (Nat.mod_eq_of_lt (by omega)), Nat.le_succ c⟩
  · rw [if_neg hk]
    exact ⟨c, hc, le_rfl⟩

/-- **One update**, in either mode. It keeps the invariant, and where the counts
fit no count falls. -/
theorem Sound.update (h : Sound depth widthOrder s) (hroom : s.achash.len < s.achash.size)
    {key : Key} (hpid : key.2 < 2 ^ 24) {full : Bool}
    (hupdate : cmskUpdate s key.1 key.2 = some (s', full)) :
    Sound depth widthOrder s' ∧ (full = false → s'.achash.len < s'.achash.size) ∧
      s'.achash.hashMode = s.achash.hashMode ∧ (CountsFit s key → CountsLe s s') := by
  obtain ⟨hshaped, hcells⟩ := h.sampled key
  have hbuckets := bucketOf_congr
    (sample_shape s.achash.hashMode s.achash.threshold s.cms key) s.achash.hashMode s.achash.mask
  obtain ⟨hash, hbucket, heq⟩ := cmskUpdate_eq s key
  rw [heq] at hupdate
  dsimp only at hupdate
  split at hupdate
  · obtain ⟨a, ha, table, same, hentries, -⟩ := achashUpdate_spec16 h.table hbucket hpid hroom
    rw [ha] at hupdate
    simp only [Option.map_some, Option.some_inj, Prod.mk.injEq] at hupdate
    obtain ⟨rfl, rfl⟩ := hupdate
    refine ⟨⟨hshaped, ?_⟩, fun hfull => not_le.mp (of_decide_eq_false hfull), same.hashMode_eq,
      fun hfit => ⟨hcells hfit, storedCount_record16 hentries hfit.stored⟩⟩
    show Table (bucketOf a.hashMode a.mask _) a
    rw [same.hashMode_eq, same.mask_eq, hbuckets]
    exact table
  · simp only [Option.some_inj, Prod.mk.injEq] at hupdate
    obtain ⟨rfl, rfl⟩ := hupdate
    refine ⟨⟨hshaped, ?_⟩, fun _ => hroom, rfl,
      fun hfit => ⟨hcells hfit, (CountsLe.refl s).stored_le⟩⟩
    show Table (bucketOf s.achash.hashMode s.achash.mask _) s.achash
    rw [hbuckets]
    exact h.table

/-! ### Runs -/

theorem opStep_update {key : Key} (h : opStep s (.update key) = some s') :
    cmskUpdate s key.1 key.2 = some (s', false) := by
  obtain ⟨⟨s₁, full⟩, hupdate, hfull⟩ := Option.bind_eq_some_iff.mp h
  cases full with
  | true => cases hfull
  | false =>
      obtain rfl : s₁ = s' := by simpa using hfull
      exact hupdate

/-- What the last call allows next: after a full table or a sort there is no sample before
the table is aged or cleared. -/
inductive Phase where
  | sampling
  | full
  | sorted

/-- The states that the calls lead to from a first one. -/
inductive Reached (s₀ : Cmsk) : Phase → Cmsk → Prop
  | start : Reached s₀ .sampling s₀
  | update {s s' : Cmsk} {full : Bool} (h : Reached s₀ .sampling s) (key : Key)
      (hpid : key.2 < 2 ^ 24) (hupdate : cmskUpdate s key.1 key.2 = some (s', full)) :
      Reached s₀ (if full then .full else .sampling) s'
  | sort {s : Cmsk} {phase : Phase} (h : Reached s₀ phase s) (std : SortByCount) :
      Reached s₀ .sorted (cmskSort std s)
  | age {s : Cmsk} {phase : Phase} (h : Reached s₀ phase s) : Reached s₀ .sampling (cmskAge s)
  | clear {s : Cmsk} {phase : Phase} (h : Reached s₀ phase s) : Reached s₀ .sampling (cmskClear s)

/-- The sizes hold in every phase, and the invariant where samples are taken. -/
structure PhaseKept (depth widthOrder : ℕ) (phase : Phase) (s : Cmsk) : Prop where
  shaped : Shaped depth widthOrder s.cms
  sized : Sized s.achash
  sampling : phase = .sampling → Sound depth widthOrder s ∧ s.achash.len < s.achash.size

theorem PhaseKept.of_sound {phase : Phase} (h : Sound depth widthOrder s)
    (hroom : phase = .sampling → s.achash.len < s.achash.size) :
    PhaseKept depth widthOrder phase s :=
  ⟨h.shaped, h.table.toSized, fun hphase => ⟨h, hroom hphase⟩⟩

theorem Reached.kept {s₀ : Cmsk} {phase : Phase} (h : Reached s₀ phase s)
    (h₀ : PhaseKept depth widthOrder .sampling s₀) : PhaseKept depth widthOrder phase s := by
  induction h with
  | start => exact h₀
  | update _ key hpid hupdate ih =>
      obtain ⟨sound, room⟩ := ih.sampling rfl
      obtain ⟨sound', room', -, -⟩ := sound.update room hpid hupdate
      refine .of_sound sound' fun hphase => room' ?_
      split at hphase
      · cases hphase
      · next hfull => exact Bool.eq_false_iff.mpr hfull
  | sort _ std ih =>
      refine ⟨?_, cmskSort_sized std ih.sized, fun hphase => nomatch hphase⟩
      rw [cmskSort_cms]
      exact ih.shaped
  | age _ ih =>
      refine .of_sound (sound_age ih.shaped ih.sized) fun _ => ?_
      rw [cmskAge_achash]
      exact ih.sized.size_pos
  | clear _ ih => exact .of_sound (sound_clear ih.shaped ih.sized) fun _ => ih.sized.size_pos

/-- Every one of the updates meets counts that fit. -/
def UpdatesFit : Cmsk → List Key → Prop
  | _, [] => True
  | s, key :: keys =>
      CountsFit s key ∧ ∀ s', opStep s (.update key) = some s' → UpdatesFit s' keys

instance : (s : Cmsk) → (keys : List Key) → Decidable (UpdatesFit s keys)
  | _, [] => isTrue trivial
  | s, key :: keys =>
      have := fun s' => instDecidableUpdatesFit s' keys
      inferInstanceAs (Decidable (CountsFit s key ∧
        ∀ s' ∈ opStep s (.update key), UpdatesFit s' keys))

/-- Where the counts fit, no update of a run lets a count fall. -/
theorem Sound.countsLe_run {keys later : List Key} (h : Sound depth widthOrder s)
    (hroom : s.achash.len < s.achash.size) (hpid : ∀ key ∈ keys, key.2 < 2 ^ 24)
    (hfit : UpdatesFit s (keys ++ later)) (hrun : opRun s (keys.map .update) = some s') :
    Sound depth widthOrder s' ∧ s'.achash.len < s'.achash.size ∧
      s'.achash.hashMode = s.achash.hashMode ∧ CountsLe s s' ∧ UpdatesFit s' later := by
  induction keys generalizing s with
  | nil => cases hrun; exact ⟨h, hroom, rfl, .refl _, hfit⟩
  | cons key keys ih =>
      obtain ⟨s₁, hstep, hrest⟩ := Option.bind_eq_some_iff.mp hrun
      obtain ⟨hkey, hkeys⟩ := List.forall_mem_cons.mp hpid
      obtain ⟨sound, room, mode, hle⟩ := h.update hroom hkey (opStep_update hstep)
      obtain ⟨sound', room', mode', hle', hlater⟩ :=
        ih sound (room rfl) hkeys (hfit.2 s₁ hstep) hrest
      exact ⟨sound', room', mode'.trans mode, (hle hfit.1).trans hle', hlater⟩

/-- An update of the page in `s` gives `s₁`, its next one in `t` gives `t₁`: neither
the value that `cms_update` computes nor the count of the item falls. -/
structure CountsKept (key : Key) (s s₁ t t₁ : Cmsk) : Prop where
  value_le : s.achash.hashMode = false →
    (cmsUpdate s.cms key.1 key.2).2.1 ≤ (cmsUpdate t.cms key.1 key.2).2.1
  stored_le : ∀ c, storedCount s₁.achash key = some c →
    ∃ c', storedCount t₁.achash key = some c' ∧ c ≤ c'

/-- Any state that the calls reach, in either mode, and any two updates of a page
with any updates between them: no count of the page falls, if no update on the way
meets a count at its largest value. -/
theorem counts_neverFall {agingHalf hashMode : Bool} {threshold sizeOrder histMax : ℕ} {s₀ : Cmsk}
    (hinit : cmskInit agingHalf hashMode widthOrder depth threshold sizeOrder histMax = some s₀)
    (hreached : Reached s₀ .sampling s) (key : Key) (between : List Key)
    (hpid : ∀ key' ∈ key :: between, key'.2 < 2 ^ 24) {s₁ t t₁ : Cmsk} {full : Bool}
    (hprevious : opStep s (.update key) = some s₁)
    (hbetween : opRun s₁ (between.map .update) = some t)
    (hlast : cmskUpdate t key.1 key.2 = some (t₁, full))
    (hfit : UpdatesFit s (key :: between ++ [key])) : CountsKept key s s₁ t t₁ := by
  obtain ⟨hkey, hkeys⟩ := List.forall_mem_cons.mp hpid
  obtain ⟨sound₀, room₀⟩ := Sound.init hinit
  obtain ⟨sound, room⟩ := (hreached.kept (.of_sound sound₀ fun _ => room₀)).sampling rfl
  obtain ⟨sound₁, room₁, mode₁, hle₁⟩ := sound.update room hkey (opStep_update hprevious)
  obtain ⟨soundT, roomT, modeT, hleT, hfitT⟩ := sound₁.countsLe_run (room₁ rfl) hkeys
    (hfit.2 s₁ hprevious) hbetween
  obtain ⟨-, -, -, hlast⟩ := soundT.update roomT hkey hlast
  have hcells := ((hle₁ hfit.1).trans hleT).cell_le
  refine ⟨fun hmode => ?_, (hleT.trans (hlast hfitT.1)).stored_le key⟩
  have hmodeT := modeT.trans (mode₁.trans hmode)
  exact (hfitT.1.cells hmodeT).value_le sound.shaped soundT.shaped hcells

end Runs

/-! ### The wrap -/

/-- In hash mode every sample of a page in the table goes to its item. -/
theorem Sound.update_stored {depth widthOrder : ℕ} {s : Cmsk} (h : Sound depth widthOrder s)
    (hroom : s.achash.len < s.achash.size) (hmode : s.achash.hashMode = true) {key : Key}
    (hpid : key.2 < 2 ^ 24) {c : ℕ} (hc : storedCount s.achash key = some c) :
    ∃ s', cmskUpdate s key.1 key.2 = some (s', false) ∧
      storedCount s'.achash key = some (count16 (c + 1)) := by
  obtain ⟨hash, hbucket, heq⟩ := cmskUpdate_eq s key
  obtain ⟨a, ha, table, same, hentries, -⟩ := achashUpdate_spec16 h.table hbucket hpid hroom
  have hmem : key ∈ s.achash.entries.map Prod.fst := by
    by_contra hmem
    rw [storedCount, lookup_eq_none.mpr hmem] at hc
    cases hc
  have hlen : a.len = s.achash.len := by
    rw [← table.length_entries, hentries, record16, if_pos hmem, List.length_map,
      h.table.length_entries]
  refine ⟨{ s with cms := (sample true s.achash.threshold s.cms key).1, achash := a }, ?_, ?_⟩
  · rw [heq, hmode]
    simp only [sample, if_true, ha, Option.map_some, Option.some_inj, Prod.mk.injEq, true_and,
      decide_eq_false_iff_not, not_le]
    rw [hlen, same.size_eq]
    exact hroom
  · simp only [storedCount] at hc ⊢
    rw [hentries, lookup_record16, if_pos rfl, hc]
    rfl

/-- One page in hash mode: its count is the number of its samples modulo 2^16. -/
theorem Sound.updates_stored {depth widthOrder : ℕ} {s : Cmsk} (h : Sound depth widthOrder s)
    (hroom : s.achash.len < s.achash.size) (hmode : s.achash.hashMode = true) {key : Key}
    (hpid : key.2 < 2 ^ 24) {c : ℕ} (hc : storedCount s.achash key = some (count16 c)) (n : ℕ) :
    ∃ s', opRun s (List.replicate n (.update key)) = some s' ∧ Sound depth widthOrder s' ∧
      s'.achash.len < s'.achash.size ∧ s'.achash.hashMode = true ∧
      storedCount s'.achash key = some (count16 (c + n)) := by
  induction n generalizing s c with
  | zero => exact ⟨s, rfl, h, hroom, hmode, hc⟩
  | succ n ih =>
      obtain ⟨s₁, hupdate, hstored⟩ := h.update_stored hroom hmode hpid hc
      obtain ⟨sound, room, mode, -⟩ := h.update hroom hpid hupdate
      rw [count16, count16, Nat.mod_add_mod] at hstored
      obtain ⟨s', hrun, hrest⟩ := ih sound (room rfl) (mode.trans hmode) (c := c + 1) hstored
      refine ⟨s', ?_, by rw [← Nat.add_assoc, Nat.add_right_comm]; exact hrest⟩
      have hstep : opStep s (.update key) = some s₁ := by rw [opStep, hupdate]; rfl
      rw [List.replicate_succ, opRun, List.foldlM_cons, hstep]
      exact hrun

/-- Outside hash mode: after an interval that was sorted and aged, two samples of a page and
one of another page between them. -/
theorem counts_neverFall_secondInterval : ∃ s₀ s' s₁ t t₁,
    let s := cmskAge (cmskSort insertionSortByCount s')
    cmskInit true false 2 2 1 2 4 = some s₀ ∧ cmskUpdate s₀ 7 1 = some (s', false) ∧
      opStep s (.update (5, 1)) = some s₁ ∧ opRun s₁ [.update (7, 1)] = some t ∧
      cmskUpdate t 5 1 = some (t₁, false) ∧ CountsKept (5, 1) s s₁ t t₁ := by
  have hrun : ((cmskInit true false 2 2 1 2 4).bind fun s₀ => (cmskUpdate s₀ 7 1).bind fun r =>
      let s := cmskAge (cmskSort insertionSortByCount r.1)
      (opStep s (.update (5, 1))).bind fun s₁ => (opRun s₁ [.update (7, 1)]).bind fun t =>
        (cmskUpdate t 5 1).map fun r' =>
          (r.2, r'.2, decide (UpdatesFit s [(5, 1), (7, 1), (5, 1)]))) =
      some (false, false, true) := by decide +kernel
  obtain ⟨s₀, hinit, hrun⟩ := Option.bind_eq_some_iff.mp hrun
  obtain ⟨⟨s', full⟩, hupdate, hrun⟩ := Option.bind_eq_some_iff.mp hrun
  obtain ⟨s₁, hprevious, hrun⟩ := Option.bind_eq_some_iff.mp hrun
  obtain ⟨t, hbetween, hrun⟩ := Option.bind_eq_some_iff.mp hrun
  obtain ⟨⟨t₁, full'⟩, hlast, hrun⟩ := Option.map_eq_some_iff.mp hrun
  simp only [Prod.mk.injEq, decide_eq_true_eq] at hrun
  obtain ⟨rfl, rfl, hfit⟩ := hrun
  have hreached : Reached s₀ .sampling s' := .update .start (7, 1) (by decide) hupdate
  exact ⟨s₀, s', s₁, t, t₁, hinit, hupdate, hprevious, hbetween, hlast,
    counts_neverFall hinit (hreached.sort insertionSortByCount).age (5, 1) [(7, 1)] (by decide)
      hprevious hbetween hlast hfit⟩

/-- The sample number 65536 of a page takes the count of its item from 65535 to 0. -/
theorem counts_fall : ∃ s₀ s s₁ t₁, cmskInit false true 2 2 1 1 4 = some s₀ ∧
    opRun s₀ (List.replicate 65534 (.update (5, 1))) = some s ∧
    opStep s (.update (5, 1)) = some s₁ ∧ cmskUpdate s₁ 5 1 = some (t₁, false) ∧
    ¬CountsKept (5, 1) s s₁ s₁ t₁ := by
  obtain ⟨s₀, hinit⟩ : ∃ s₀, cmskInit false true 2 2 1 1 4 = some s₀ := ⟨_, rfl⟩
  obtain ⟨s', hfirst⟩ : ∃ s', opStep s₀ (.update (5, 1)) = some s' := by
    cases hinit
    exact ⟨_, rfl⟩
  have hone : s'.achash.hashMode = true ∧ storedCount s'.achash (5, 1) = some (count16 1) := by
    cases hinit
    cases hfirst
    exact ⟨rfl, rfl⟩
  obtain ⟨sound₀, room₀⟩ := Sound.init hinit
  obtain ⟨sound', room', -, -⟩ := sound₀.update room₀ (by norm_num) (opStep_update hfirst)
  obtain ⟨s, hrun, sound, room, mode, hstored⟩ :=
    sound'.updates_stored (room' rfl) hone.1 (by norm_num) hone.2 65533
  obtain ⟨s₁, hupdate₁, hstored₁⟩ := sound.update_stored room mode (by norm_num) hstored
  obtain ⟨sound₁, room₁, mode₁, -⟩ := sound.update room (by norm_num) hupdate₁
  obtain ⟨t₁, hupdate₂, hstored₂⟩ :=
    sound₁.update_stored (room₁ rfl) (mode₁.trans mode) (by norm_num) hstored₁
  refine ⟨s₀, s, s₁, t₁, hinit, ?_, by rw [opStep, hupdate₁]; rfl, hupdate₂, fun hkept => ?_⟩
  · rw [show (65534 : ℕ) = 65533 + 1 from rfl, List.replicate_succ, opRun, List.foldlM_cons, hfirst]
    exact hrun
  · obtain ⟨c', hc', hle⟩ := hkept.stored_le _ hstored₁
    obtain rfl : 0 = c' := Option.some_inj.mp (hstored₂.symm.trans hc')
    exact absurd hle (by decide)

end MemoryOptimizer.PmuRefs
