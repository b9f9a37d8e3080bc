import Mathlib.Data.List.Basic
import Mathlib.Logic.Function.Basic

/-!
# Trips

Writes to a map, each of which may fail. A trip writes to some keys what it likes, and
then to all of them what they held in the beginning; if the writes of the second half take
effect, nothing is left of the trip.

* `written_trip` — a trip leaves the map as it was.
* `written_trips` — so do any number of trips one after another, and in between only keys of
  one trip are changed.
-/

namespace MemoryOptimizer.Trips

variable {α β : Type*} [DecidableEq α]

/-- A write, and whether it takes effect. -/
structure Write (α β : Type*) where
  key : α
  value : β
  done : Bool

/-- The map after some writes. -/
def written (f : α → β) (ws : List (Write α β)) : α → β :=
  ws.foldl (fun f w => if w.done then Function.update f w.key w.value else f) f

@[simp] theorem written_nil (f : α → β) : written f [] = f := rfl

theorem written_cons (f : α → β) (w : Write α β) (ws : List (Write α β)) :
    written f (w :: ws) = written (if w.done then Function.update f w.key w.value else f) ws := rfl

theorem written_append (f : α → β) (ws ws' : List (Write α β)) :
    written f (ws ++ ws') = written (written f ws) ws' := List.foldl_append ..

/-- A key that no write names. -/
theorem written_of_notMem {f : α → β} {ws : List (Write α β)} {k : α}
    (hk : k ∉ ws.map Write.key) : written f ws k = f k := by
  induction ws generalizing f with
  | nil => rfl
  | cons w ws ih =>
      rw [List.map_cons, List.mem_cons, not_or] at hk
      rw [written_cons, ih hk.2]
      split
      · exact Function.update_of_ne hk.1 _ _
      · rfl

/-- The writes put the values of a map back. -/
def PutBack (home : α → β) (ws : List (Write α β)) : Prop :=
  ∀ w ∈ ws, w.value = home w.key ∧ w.done = true

/-- A key that is put back, if it was not in place before. -/
theorem written_putBack {home f : α → β} {ws : List (Write α β)} (hback : PutBack home ws) {k : α}
    (hk : k ∈ ws.map Write.key ∨ f k = home k) : written f ws k = home k := by
  induction ws generalizing f with
  | nil => simpa using hk
  | cons w ws ih =>
      obtain ⟨⟨hvalue, hdone⟩, hback⟩ := List.forall_mem_cons.mp hback
      rw [written_cons, hdone, if_pos rfl]
      refine ih hback ?_
      by_cases hkey : k = w.key
      · subst hkey
        exact .inr (by rw [Function.update_self, hvalue])
      · refine hk.imp (fun hk => ?_) fun hk => by rwa [Function.update_of_ne hkey]
        rw [List.map_cons, List.mem_cons] at hk
        exact hk.resolve_left hkey

/-- Away and back: the second half puts back all keys of the first. -/
structure Trip (home : α → β) (away back : List (Write α β)) : Prop where
  keys : ∀ w ∈ away, w.key ∈ back.map Write.key
  putBack : PutBack home back

section Trip

variable {home : α → β} {away back : List (Write α β)}

/-- **A trip.** -/
theorem written_trip (trip : Trip home away back) : written home (away ++ back) = home := by
  funext k
  rw [written_append]
  refine written_putBack trip.putBack ?_
  by_cases hk : k ∈ away.map Write.key
  · obtain ⟨w, hw, rfl⟩ := List.mem_map.mp hk
    exact .inl (trip.keys w hw)
  · exact .inr (written_of_notMem hk)

/-- Before the end of a trip only its own keys are changed. -/
theorem Trip.prefix_changes (trip : Trip home away back) {pre : List (Write α β)}
    (hpre : pre <+: away ++ back) {k : α} (hk : written home pre k ≠ home k) :
    k ∈ back.map Write.key := by
  by_contra hnot
  refine hk (written_of_notMem fun hmem => hnot ?_)
  obtain ⟨w, hw, rfl⟩ := List.mem_map.mp hmem
  rcases List.mem_append.mp (hpre.subset hw) with hw | hw
  · exact trip.keys w hw
  · exact List.mem_map_of_mem hw

end Trip

/-- **Trips** one after another. -/
theorem written_trips {home : α → β} (trips : List (List (Write α β) × List (Write α β)))
    (htrips : ∀ t ∈ trips, Trip home t.1 t.2) :
    written home (trips.flatMap fun t => t.1 ++ t.2) = home ∧
      ∀ pre, pre <+: trips.flatMap (fun t => t.1 ++ t.2) → written home pre = home ∨
        ∃ t ∈ trips, ∀ k, written home pre k ≠ home k → k ∈ t.2.map Write.key := by
  induction trips with
  | nil =>
      refine ⟨rfl, fun pre hpre => .inl ?_⟩
      rw [List.prefix_nil.mp hpre, written_nil]
  | cons t trips ih =>
      obtain ⟨htrip, htrips⟩ := List.forall_mem_cons.mp htrips
      obtain ⟨ihEnd, ihPre⟩ := ih htrips
      have hback := written_trip htrip
      rw [List.flatMap_cons]
      refine ⟨by rw [written_append, hback, ihEnd], fun pre hpre => ?_⟩
      rcases List.prefix_or_prefix_of_prefix hpre (List.prefix_append _ _) with hpre | ⟨rest, rfl⟩
      · exact .inr ⟨t, List.mem_cons_self, fun k hk => htrip.prefix_changes hpre hk⟩
      · have hrest := (List.prefix_append_right_inj _).mp hpre
        rw [written_append, hback]
        refine (ihPre rest hrest).imp id fun ⟨t', ht', hchanged⟩ => ?_
        exact ⟨t', List.mem_cons_of_mem _ ht', hchanged⟩

end MemoryOptimizer.Trips
