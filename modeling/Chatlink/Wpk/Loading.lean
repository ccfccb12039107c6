import Chatlink.Lib.Lists
import Chatlink.Wpk.Load

/-!
# Every byte lands once

Memory is cut into areas of one chunk. Each read in flight, each chunk about to be handed over and
each copy that waits for the stream has an area of its own, so no write of the kernel touches what
has arrived elsewhere, and every chunk that was taken up is accounted for until a failure.
-/
namespace Chatlink.Wpk.Load

open Files Transition

variable {c : Config} {st st' : State}

/-! ## One step -/

def Input.isScribble : Input → Bool
  | .scribble _ _ _ => true
  | _ => false

/-- The state once `n` bytes of a read have arrived and the read is off the list. -/
def arrived (c : Config) (st : State) (l₁ l₂ : List Sqe) (q : Sqe) (n : ℕ) : State :=
  { st with
    flight := l₁ ++ l₂
    busy := st.busy - 1
    slots := Function.update st.slots q.userData
      { st.slots q.userData with done := (st.slots q.userData).done + n }
    mem := put st.mem q.addr (slice c.file q.off n) }

/-- The state once the place of a chunk is found and the chunk is asked for. -/
def taken (c : Config) (st : State) (chunk : ℕ) (s : Fin DEPTH) : State :=
  let slot : Slot := ⟨chunk, c.target.place chunk s * CHUNK, c.want chunk, 0⟩
  submit { st with slots := Function.update st.slots s slot } s

/-- What a step can do: the kernel's (`true`), which the program does not see, or another. -/
inductive Moves (c : Config) (st : State) : Bool → State → Prop
  | skip (s : Fin DEPTH) (first : Bool) (hpoint : st.point = .refill s first) (hnone : c.len ≤ st.next * CHUNK) :
      Moves c st false { st with point := after s first }
  | take (s : Fin DEPTH) (first : Bool) (hpoint : st.point = .refill s first) (hsome : st.next * CHUNK < c.len) :
      Moves c st false { st with next := st.next + 1, point := .target st.next s first }
  | leave (hpoint : st.point = .waiting) (hbusy : st.busy = 0) : Moves c st false { st with point := .returned }
  | refused (chunk : ℕ) (s : Fin DEPTH) (first : Bool) (err : Failure) (hpoint : st.point = .target chunk s first) :
      Moves c st false (fail st err)
  | asked (chunk : ℕ) (s : Fin DEPTH) (first : Bool) (hpoint : st.point = .target chunk s first)
      (hfree : ∀ u ∈ st.uploads, u.2 ≠ s) :
      Moves c st false { taken c st chunk s with point := after s first }
  | broken (l₁ l₂ : List Sqe) (q : Sqe) (err : Failure) (hpoint : st.point = .waiting)
      (hflight : st.flight = l₁ ++ q :: l₂) :
      Moves c st false { st with flight := l₁ ++ l₂, busy := st.busy - 1, result := st.result.or (some err) }
  | whole (l₁ l₂ : List Sqe) (q : Sqe) (n : ℕ) (hpoint : st.point = .waiting) (hflight : st.flight = l₁ ++ q :: l₂)
      (hn : 0 < n) (hlen : n ≤ q.len) (hfile : q.off + n ≤ c.file.length)
      (hwhole : (st.slots q.userData).done + n = (st.slots q.userData).want) (hok : st.result = none) :
      Moves c st false { arrived c st l₁ l₂ q n with point := .landed q.userData }
  | late (l₁ l₂ : List Sqe) (q : Sqe) (n : ℕ) (hpoint : st.point = .waiting) (hflight : st.flight = l₁ ++ q :: l₂)
      (hn : 0 < n) (hlen : n ≤ q.len) (hfile : q.off + n ≤ c.file.length)
      (hwhole : (st.slots q.userData).done + n = (st.slots q.userData).want) (hfailed : st.result ≠ none) :
      Moves c st false (arrived c st l₁ l₂ q n)
  | short (l₁ l₂ : List Sqe) (q : Sqe) (n : ℕ) (hpoint : st.point = .waiting) (hflight : st.flight = l₁ ++ q :: l₂)
      (hn : 0 < n) (hlen : n ≤ q.len) (hfile : q.off + n ≤ c.file.length)
      (hshort : (st.slots q.userData).done + n ≠ (st.slots q.userData).want) :
      Moves c st false (submit (arrived c st l₁ l₂ q n) q.userData)
  | handed (s : Fin DEPTH) (hpoint : st.point = .landed s) (ups : List (ℕ × Fin DEPTH))
      (hups : ups = match c.target with | .device => [((st.slots s).chunk, s)] | .host => []) :
      Moves c st false { st with
        uploads := st.uploads ++ ups
        delivered := st.delivered ++ [(st.slots s).chunk]
        point := .refill s false }
  | dropped (s : Fin DEPTH) (err : Failure) (hpoint : st.point = .landed s) (ups : List (ℕ × Fin DEPTH))
      (hups : ups = [] ∨ c.target = .device ∧ ups = [((st.slots s).chunk, s)]) :
      Moves c st false (fail { st with uploads := st.uploads ++ ups } err)
  | copied (chunk : ℕ) (s : Fin DEPTH) (uploads : List (ℕ × Fin DEPTH)) (hups : st.uploads = (chunk, s) :: uploads) :
      Moves c st false { st with uploads, vram := put st.vram (chunk * CHUNK) (slice st.mem (s * CHUNK) (c.want chunk)) }
  | scribbled (q : Sqe) (i : ℕ) (bytes : List UInt8) (hq : q ∈ st.flight) (hin : i + bytes.length ≤ q.len) :
      Moves c st true { st with mem := put st.mem (q.addr + i) bytes }

theorem moves_of_complete {l₁ l₂ : List Sqe} {q : Sqe} {res : ℤ} (hpoint : st.point = .waiting)
    (hflight : st.flight = l₁ ++ q :: l₂) (hlen : res ≤ q.len)
    (hfile : 0 < res → q.off + res.toNat ≤ c.file.length) :
    Moves c st false (complete c { st with flight := l₁ ++ l₂, busy := st.busy - 1 } q res) := by
  unfold complete
  dsimp only
  split_ifs with hneg hzero hwhole hok
  · exact .broken l₁ l₂ q _ hpoint hflight
  · exact .broken l₁ l₂ q _ hpoint hflight
  · exact .whole l₁ l₂ q res.toNat hpoint hflight (by omega) (by omega) (hfile (by omega)) hwhole (by simpa using hok)
  · exact .late l₁ l₂ q res.toNat hpoint hflight (by omega) (by omega) (hfile (by omega)) hwhole (by simpa using hok)
  · exact .short l₁ l₂ q res.toNat hpoint hflight (by omega) (by omega) (hfile (by omega)) hwhole

theorem moves_of_go (h : step c st .go = some st') : Moves c st false st' := by
  unfold step at h
  dsimp only at h
  split at h
  · rename_i s first hpoint
    split_ifs at h with hnone
    · obtain rfl := Option.some.inj h
      exact .skip s first hpoint hnone
    · obtain rfl := Option.some.inj h
      exact .take s first hpoint (by omega)
  · rename_i hpoint
    split_ifs at h with hbusy
    obtain rfl := Option.some.inj h
    exact .leave hpoint hbusy
  · cases h

theorem moves_of_found {err : Option Failure} (h : step c st (.found err) = some st') : Moves c st false st' := by
  unfold step at h
  dsimp only at h
  split at h
  · rename_i chunk s first hpoint
    cases err with
    | some err =>
      obtain rfl := Option.some.inj h
      exact .refused chunk s first err hpoint
    | none =>
      dsimp only at h
      split_ifs at h with hbusy
      obtain rfl := Option.some.inj h
      push Not at hbusy
      exact .asked chunk s first hpoint hbusy
  · cases h

theorem moves_of_completion {k : ℕ} {res : ℤ} (h : step c st (.completion k res) = some st') :
    Moves c st false st' := by
  unfold step at h
  dsimp only at h
  split at h
  · rename_i q hpoint hq
    split_ifs at h with hres
    obtain rfl := Option.some.inj h
    rw [List.eraseIdx_eq_take_drop_succ]
    exact moves_of_complete hpoint (Lists.split_at hq) hres.1 hres.2
  · cases h

theorem moves_of_handed {queued : Bool} {err : Option Failure} (h : step c st (.handed queued err) = some st') :
    Moves c st false st' := by
  unfold step at h
  dsimp only at h
  split at h
  · rename_i s hpoint
    cases err with
    | none =>
      have hqueued : (queued || (none : Option Failure).isNone) = true := Bool.or_true queued
      rw [hqueued] at h
      obtain rfl := Option.some.inj h
      cases htarget : c.target with
      | device => exact .handed s hpoint [((st.slots s).chunk, s)] (by rw [htarget])
      | host =>
        have hsame := Moves.handed (c := c) s hpoint [] (by rw [htarget])
        rwa [List.append_nil] at hsame
    | some err =>
      obtain rfl := Option.some.inj h
      have hnone := Moves.dropped (c := c) s err hpoint [] (.inl rfl)
      rw [List.append_nil] at hnone
      split
      · rename_i htarget _
        exact .dropped s err hpoint [((st.slots s).chunk, s)] (.inr ⟨htarget, rfl⟩)
      · exact hnone
  · cases h

theorem moves_of_step {inp : Input} (h : step c st inp = some st') : Moves c st inp.isScribble st' := by
  cases inp with
  | go => exact moves_of_go h
  | found err => exact moves_of_found h
  | completion k res => exact moves_of_completion h
  | handed queued err => exact moves_of_handed h
  | copy =>
    unfold step at h
    dsimp only at h
    split at h
    · rename_i chunk s uploads hups
      obtain rfl := Option.some.inj h
      exact .copied chunk s uploads hups
    · cases h
  | scribble k i bytes =>
    unfold step at h
    dsimp only at h
    split at h
    · rename_i q hq
      split_ifs at h with hin
      obtain rfl := Option.some.inj h
      exact .scribbled q i bytes (List.mem_of_getElem? hq) hin
    · cases h

/-! ## Slots -/

/-- The slots with a read in flight. -/
def State.users (st : State) : List (Fin DEPTH) := st.flight.map Sqe.userData

/-- The slot the program is at. -/
def Point.slots : Point → List (Fin DEPTH)
  | .refill s _ => [s]
  | .target _ s _ => [s]
  | .landed s => [s]
  | _ => []

/-- The slots that are still to be filled for the first time. -/
def Point.Ahead (s : Fin DEPTH) : Point → Prop
  | .refill s₀ first => first = true ∧ s₀ < s
  | .target _ s₀ first => first = true ∧ s₀ < s
  | _ => False

/-- What holds of slots and reads. -/
structure Slotted (c : Config) (st : State) : Prop where
  busy : st.busy = st.flight.length
  requests : ∀ q ∈ st.flight, q = request (st.slots q.userData) q.userData ∧
    (st.slots q.userData).done < (st.slots q.userData).want
  distinct : (st.users ++ st.point.slots).Nodup
  ahead : ∀ s, st.point.Ahead s → s ∉ st.users
  room : st.result = none → ∀ s, s ∈ st.users ++ st.point.slots ∨ c.len ≤ st.next * CHUNK ∨ st.point.Ahead s
  live : st.point.slots ≠ [] → st.result = none
  back : st.point = .returned → st.flight = []

theorem slotted_start (mem vram : List UInt8) : Slotted c (start mem vram) := by
  refine ⟨rfl, nofun, List.nodup_singleton _, nofun, fun _ s => ?_, fun _ => rfl, nofun⟩
  obtain rfl | hs := eq_or_ne s ⟨0, by decide⟩
  · exact .inl (List.mem_singleton.mpr rfl)
  · exact .inr (.inr ⟨rfl, by rw [Fin.lt_def]; exact Nat.pos_of_ne_zero fun h => hs (Fin.ext h)⟩)

/-- Behind a refill the program is at the next slot, or waits. -/
theorem after_cases (s : Fin DEPTH) (first : Bool) :
    (∃ t : Fin DEPTH, first = true ∧ t.1 = s + 1 ∧ after s first = .refill t true) ∨
      ((∀ t : Fin DEPTH, first = true → t ≤ s) ∧ after s first = .waiting) := by
  unfold after
  split_ifs with h
  · exact .inl ⟨⟨s + 1, h.2⟩, h.1, rfl, rfl⟩
  · refine .inr ⟨fun t hfirst => ?_, rfl⟩
    have hlt := t.2
    by_contra hle
    rw [not_le, Fin.lt_def] at hle
    exact h ⟨hfirst, by omega⟩

/-- A refill leaves its slot, which is in use or not. -/
theorem slotted_after {s : Fin DEPTH} {first : Bool} {users : List (Fin DEPTH)} (hdistinct : users.Nodup)
    (hahead : ∀ t, first = true ∧ s < t → t ∉ users) :
    (users ++ (after s first).slots).Nodup ∧ (∀ t, (after s first).Ahead t → t ∉ users) ∧
      (∀ t, first = true ∧ s < t → t ∈ (after s first).slots ∨ (after s first).Ahead t) ∧
      after s first ≠ .returned := by
  obtain ⟨t, rfl, ht, hafter⟩ | ⟨hlast, hafter⟩ := after_cases s first
  · have hlt : s < t := by
      rw [Fin.lt_def]
      omega
    rw [hafter]
    refine ⟨?_, ?_, ?_, by simp⟩
    · exact List.nodup_append.mpr ⟨hdistinct, List.nodup_singleton _, fun a ha b hb hab =>
        hahead t ⟨rfl, hlt⟩ (List.mem_singleton.mp hb ▸ hab ▸ ha)⟩
    · rintro u ⟨-, hu⟩
      exact hahead u ⟨rfl, hlt.trans hu⟩
    · rintro u ⟨-, hu⟩
      obtain rfl | hne := eq_or_ne u t
      · exact .inl (List.mem_singleton.mpr rfl)
      · refine .inr ⟨rfl, ?_⟩
        have hne' : u.1 ≠ t.1 := fun h => hne (Fin.ext h)
        rw [Fin.lt_def] at hu ⊢
        omega
  · rw [hafter]
    refine ⟨?_, nofun, ?_, nofun⟩
    · have hnil : Point.waiting.slots = [] := rfl
      rwa [hnil, List.append_nil]
    · rintro t ⟨hfirst, ht⟩
      exact absurd (hlast t hfirst) (not_le.mpr ht)

theorem users_split {l₁ l₂ : List Sqe} {q : Sqe} (hflight : st.flight = l₁ ++ q :: l₂) :
    st.users.Perm (q.userData :: (l₁ ++ l₂).map Sqe.userData) := by
  rw [State.users, hflight, List.map_append, List.map_append, List.map_cons]
  exact List.perm_middle

/-- The other reads do not use the slot of a read. -/
theorem Slotted.others (hi : Slotted c st) {l₁ l₂ : List Sqe} {q : Sqe} (hflight : st.flight = l₁ ++ q :: l₂) :
    ((l₁ ++ l₂).map Sqe.userData).Nodup ∧ q.userData ∉ (l₁ ++ l₂).map Sqe.userData := by
  have hnodup := (users_split hflight).nodup_iff.mp (List.nodup_append.mp hi.distinct).1
  exact ⟨(List.nodup_cons.mp hnodup).2, (List.nodup_cons.mp hnodup).1⟩

/-- A read in flight, in a state whose slots differ in one that it does not use. -/
theorem Slotted.request_update (hi : Slotted c st) {q : Sqe} {s : Fin DEPTH} {slot : Slot} (hq : q ∈ st.flight)
    (hs : q.userData ≠ s) : q = request (Function.update st.slots s slot q.userData) q.userData ∧
      (Function.update st.slots s slot q.userData).done < (Function.update st.slots s slot q.userData).want := by
  rw [Function.update_of_ne hs]
  exact hi.requests q hq

theorem Slotted.skip (hi : Slotted c st) {s : Fin DEPTH} {first : Bool} (hpoint : st.point = .refill s first)
    (hnone : c.len ≤ st.next * CHUNK) : Slotted c { st with point := after s first } := by
  have hdistinct := hi.distinct
  have hahead := hi.ahead
  rw [hpoint] at hdistinct hahead
  obtain ⟨hd, ha, -, hb⟩ := slotted_after (List.nodup_append.mp hdistinct).1 hahead
  have hlive : st.result = none := hi.live (by rw [hpoint]; exact List.cons_ne_nil _ _)
  exact ⟨hi.busy, hi.requests, hd, ha, fun _ _ => .inr (.inl hnone), fun _ => hlive, fun h => absurd h hb⟩

theorem taken_users (chunk : ℕ) (s : Fin DEPTH) :
    (taken c st chunk s).flight.map Sqe.userData = st.users ++ [s] := by
  simp [taken, submit, State.users, request]

theorem Slotted.asked (hi : Slotted c st) {chunk : ℕ} {s : Fin DEPTH} {first : Bool}
    (hpoint : st.point = .target chunk s first) (hwant : 0 < c.want chunk) :
    Slotted c { taken c st chunk s with point := after s first } := by
  have hdistinct := hi.distinct
  have hahead := hi.ahead
  rw [hpoint] at hdistinct hahead
  have hlive : st.result = none := hi.live (by rw [hpoint]; exact List.cons_ne_nil _ _)
  have hs : s ∉ st.users := fun h => (List.nodup_append.mp hdistinct).2.2 s h s (List.mem_singleton.mpr rfl) rfl
  have husers : ∀ t, first = true ∧ s < t → t ∉ st.users ++ [s] := by
    intro t ht h
    obtain h | h := List.mem_append.mp h
    · exact hahead t ht h
    · exact absurd (List.mem_singleton.mp h) ht.2.ne'
  obtain ⟨hd, ha, hr, hb⟩ := slotted_after hdistinct husers
  refine ⟨?_, ?_, ?_, ?_, ?_, fun _ => hlive, fun h => absurd h hb⟩
  · simp [taken, submit, hi.busy]
  · intro q hq
    obtain hq | hq := List.mem_append.mp hq
    · exact hi.request_update hq fun h => hs (h ▸ List.mem_map_of_mem hq)
    · obtain rfl := List.mem_singleton.mp hq
      refine ⟨rfl, ?_⟩
      change (Function.update st.slots s _ s).done < (Function.update st.slots s _ s).want
      rw [Function.update_self]
      exact hwant
  · rw [State.users, taken_users]
    exact hd
  · rw [State.users, taken_users]
    exact ha
  · intro _ t
    rw [State.users, taken_users]
    obtain h | h | h := hi.room hlive t
    · rw [hpoint] at h
      exact .inl (List.mem_append_left _ h)
    · exact .inr (.inl h)
    · rw [hpoint] at h
      obtain h | h := hr t h
      · exact .inl (List.mem_append_right _ h)
      · exact .inr (.inr h)

section Answered

variable {l₁ l₂ : List Sqe} {q : Sqe} {slots : Fin DEPTH → Slot}

theorem mem_of_rest (hflight : st.flight = l₁ ++ q :: l₂) {r : Sqe} (hr : r ∈ l₁ ++ l₂) : r ∈ st.flight := by
  rw [hflight]
  simp only [List.mem_append, List.mem_cons] at hr ⊢
  tauto

/-- The reads that are left, once one is answered and its slot has changed. -/
theorem Slotted.rest (hi : Slotted c st) (hflight : st.flight = l₁ ++ q :: l₂)
    (hslots : ∀ s ≠ q.userData, slots s = st.slots s) :
    st.busy - 1 = (l₁ ++ l₂).length ∧ ∀ r ∈ l₁ ++ l₂, r = request (slots r.userData) r.userData ∧
      (slots r.userData).done < (slots r.userData).want := by
  have hbusy := hi.busy
  rw [hflight] at hbusy
  refine ⟨?_, fun r hr => ?_⟩
  · simp only [List.length_append, List.length_cons] at hbusy ⊢
    omega
  · have hne : r.userData ≠ q.userData := fun h =>
      (hi.others hflight).2 (h ▸ List.mem_map_of_mem hr)
    rw [hslots _ hne]
    exact hi.requests r (mem_of_rest hflight hr)

/-- An answer that leaves the program waiting after a failure. -/
theorem Slotted.fewer (hi : Slotted c st) (hpoint : st.point = .waiting) (hflight : st.flight = l₁ ++ q :: l₂)
    (hslots : ∀ s ≠ q.userData, slots s = st.slots s) (mem : List UInt8) {result : Option Failure}
    (hresult : result ≠ none) :
    Slotted c { st with flight := l₁ ++ l₂, busy := st.busy - 1, slots, mem, result } := by
  obtain ⟨hbusy, hrequests⟩ := hi.rest hflight hslots
  refine ⟨hbusy, hrequests, ?_, ?_, fun h => absurd h hresult, ?_, ?_⟩
  · rw [hpoint]
    exact List.nodup_append.mpr ⟨(hi.others hflight).1, List.nodup_nil, nofun⟩
  · rw [hpoint]
    nofun
  · rw [hpoint]
    exact fun h => absurd rfl h
  · rw [hpoint]
    nofun

theorem Slotted.whole (hi : Slotted c st) (hpoint : st.point = .waiting) (hflight : st.flight = l₁ ++ q :: l₂)
    (hslots : ∀ s ≠ q.userData, slots s = st.slots s) (mem : List UInt8) (hok : st.result = none) :
    Slotted c { st with flight := l₁ ++ l₂, busy := st.busy - 1, slots, mem, point := .landed q.userData } := by
  obtain ⟨hbusy, hrequests⟩ := hi.rest hflight hslots
  obtain ⟨hnodup, hout⟩ := hi.others hflight
  refine ⟨hbusy, hrequests, ?_, nofun, fun _ s => ?_, fun _ => hok, nofun⟩
  · refine List.nodup_append.mpr ⟨hnodup, List.nodup_singleton _, fun a ha b hb hab => ?_⟩
    exact hout (List.mem_singleton.mp hb ▸ hab ▸ ha)
  · obtain h | h | h := hi.room hok s
    · rw [hpoint] at h
      obtain h | h := List.mem_append.mp h
      · obtain rfl | h := List.mem_cons.mp ((users_split hflight).mem_iff.mp h)
        · exact .inl (List.mem_append_right _ (List.mem_singleton.mpr rfl))
        · exact .inl (List.mem_append_left _ h)
      · cases h
    · exact .inr (.inl h)
    · rw [hpoint] at h
      cases h

theorem Slotted.short (hi : Slotted c st) (hpoint : st.point = .waiting) (hflight : st.flight = l₁ ++ q :: l₂)
    (hslots : ∀ s ≠ q.userData, slots s = st.slots s) (mem : List UInt8)
    (hdone : (slots q.userData).done < (slots q.userData).want) :
    Slotted c (submit { st with flight := l₁ ++ l₂, busy := st.busy - 1, slots, mem } q.userData) := by
  obtain ⟨hbusy, hrequests⟩ := hi.rest hflight hslots
  obtain ⟨hnodup, hout⟩ := hi.others hflight
  have husers : (submit { st with flight := l₁ ++ l₂, busy := st.busy - 1, slots, mem } q.userData).users.Perm
      st.users := by
    refine .trans ?_ (users_split hflight).symm
    simp only [State.users, submit, List.map_append, request, List.map_cons, List.map_nil]
    exact List.perm_append_singleton _ _
  refine ⟨?_, ?_, ?_, ?_, ?_, hi.live, ?_⟩
  · have hlen (r : Sqe) : (l₁ ++ l₂ ++ [r]).length = (l₁ ++ l₂).length + 1 := List.length_append
    rw [submit, hbusy, hlen]
  · intro r hr
    obtain hr | hr := List.mem_append.mp hr
    · exact hrequests r hr
    · have hr : r = request (slots q.userData) q.userData := List.mem_singleton.mp hr
      have huser : r.userData = q.userData := by rw [hr, request]
      change r = request (slots r.userData) r.userData ∧ (slots r.userData).done < (slots r.userData).want
      rw [huser]
      exact ⟨hr, hdone⟩
  · exact (husers.append_right _).nodup_iff.mpr hi.distinct
  · exact fun s hs h => hi.ahead s hs (husers.mem_iff.mp h)
  · intro hok s
    obtain h | h := hi.room hok s
    · exact .inl ((husers.append_right _).mem_iff.mpr h)
    · exact .inr h
  · intro h
    have h' : st.point = .returned := h
    rw [hpoint] at h'
    cases h'

end Answered

end Chatlink.Wpk.Load
