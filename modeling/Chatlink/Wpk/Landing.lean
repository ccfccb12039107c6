import Chatlink.Wpk.Loading

/-!
# Where chunks land

Until a failure the chunks that were taken up are those handed over, those in flight and the one the
program is at. Each of them has an area of memory, into which nothing else is read.
-/
namespace Chatlink.Wpk.Load

open Files Transition

variable {c : Config} {st st' : State}

/-! ## Areas -/

/-- An area of memory and what has arrived there of a chunk. -/
structure Area where
  place : ℕ
  chunk : ℕ
  done : ℕ

/-- The areas are apart, and each holds what has arrived. -/
structure Safe (c : Config) (mem : List UInt8) (areas : List Area) : Prop where
  apart : (areas.map Area.place).Nodup
  bytes : ∀ a ∈ areas, a.done ≤ CHUNK ∧ Copied c.file (ALIGN + a.chunk * CHUNK) mem (a.place * CHUNK) a.done

theorem nodup_of_subperm {α : Type} {l l' : List α} (h : l'.Subperm l) (hl : l.Nodup) : l'.Nodup := by
  obtain ⟨m, hperm, hsub⟩ := h
  exact hperm.nodup_iff.mp (hsub.nodup hl)

theorem Safe.subperm {mem : List UInt8} {l l' : List Area} (h : Safe c mem l) (hl : l'.Subperm l) : Safe c mem l' := by
  refine ⟨?_, fun a ha => h.bytes a (hl.subset ha)⟩
  obtain ⟨m, hperm, hsub⟩ := hl
  exact (hperm.map _).nodup_iff.mp ((hsub.map _).nodup h.apart)

theorem blocks_apart {x y : ℕ} (h : x ≠ y) : x * CHUNK + CHUNK ≤ y * CHUNK ∨ y * CHUNK + CHUNK ≤ x * CHUNK := by
  rw [← Nat.succ_mul, ← Nat.succ_mul]
  obtain hlt | hlt := Nat.lt_or_gt_of_ne h
  · exact .inl (Nat.mul_le_mul_right _ hlt)
  · exact .inr (Nat.mul_le_mul_right _ hlt)

/-- A write into one area, behind what has arrived there. -/
theorem Safe.write {mem : List UInt8} {a : Area} {l : List Area} (h : Safe c mem (a :: l)) {k : ℕ} {xs : List UInt8}
    (hk : a.place * CHUNK + a.done ≤ k) (hend : k + xs.length ≤ a.place * CHUNK + CHUNK) :
    Safe c (put mem k xs) (a :: l) := by
  refine ⟨h.apart, fun b hb => ⟨(h.bytes b hb).1, (h.bytes b hb).2.put ?_⟩⟩
  obtain rfl | hb := List.mem_cons.mp hb
  · exact .inl hk
  · have hne : a.place ≠ b.place := fun heq =>
      (List.nodup_cons.mp h.apart).1 (heq ▸ List.mem_map_of_mem hb)
    have hdone := (h.bytes b (List.mem_cons_of_mem a hb)).1
    obtain hap | hap := blocks_apart hne
    · exact .inr (by omega)
    · exact .inl (by omega)

/-- More of a chunk arrives. -/
theorem Safe.extend {mem : List UInt8} {x chunk done n : ℕ} {l : List Area} (h : Safe c mem (⟨x, chunk, done⟩ :: l))
    (hn : done + n ≤ CHUNK) (hfile : ALIGN + chunk * CHUNK + done + n ≤ c.file.length) :
    Safe c (put mem (x * CHUNK + done) (slice c.file (ALIGN + chunk * CHUNK + done) n))
      (⟨x, chunk, done + n⟩ :: l) := by
  have hlen : (slice c.file (ALIGN + chunk * CHUNK + done) n).length = n := length_slice_of_le hfile
  have hw : Safe c (put mem (x * CHUNK + done) (slice c.file (ALIGN + chunk * CHUNK + done) n))
      (⟨x, chunk, done⟩ :: l) := h.write (Nat.le_refl _) (by rw [hlen]; dsimp only; omega)
  refine ⟨hw.apart, List.forall_mem_cons.mpr ⟨⟨hn, ?_⟩, (List.forall_mem_cons.mp hw.bytes).2⟩⟩
  exact (h.bytes _ List.mem_cons_self).2.extend hfile

/-! ## Chunks -/

/-- The chunk the program is at. -/
def Point.chunks (slots : Fin DEPTH → Slot) : Point → List ℕ
  | .target chunk _ _ => [chunk]
  | .landed s => [(slots s).chunk]
  | _ => []

/-- The chunks that were taken up and are not lost. -/
def State.chunks (st : State) : List ℕ :=
  st.delivered ++ (st.users.map fun s => (st.slots s).chunk) ++ st.point.chunks st.slots

/-- Every chunk is taken up once, in order, and is lost in a failure only. -/
structure Accounted (c : Config) (st : State) : Prop where
  once : st.chunks.Nodup
  below : ∀ x ∈ st.chunks, x < st.next
  all : st.result = none → ∀ x < st.next, x ∈ st.chunks
  real : ∀ x < st.next, x * CHUNK < c.len

theorem accounted_start (mem vram : List UInt8) : Accounted c (start mem vram) :=
  ⟨List.nodup_nil, nofun, nofun, nofun⟩

theorem Accounted.of_perm (hi : Accounted c st) (hchunks : st'.chunks.Perm st.chunks) (hnext : st'.next = st.next)
    (hresult : st'.result = none → st.result = none) : Accounted c st' := by
  refine ⟨hchunks.nodup_iff.mpr hi.once, fun x hx => ?_, fun hok x hx => ?_, fun x hx => hi.real x (hnext ▸ hx)⟩
  · rw [hnext]
    exact hi.below x (hchunks.mem_iff.mp hx)
  · rw [hnext] at hx
    exact hchunks.mem_iff.mpr (hi.all (hresult hok) x hx)

theorem Accounted.of_failure (hi : Accounted c st) (hchunks : st'.chunks.Subperm st.chunks)
    (hnext : st'.next = st.next) (hresult : st'.result ≠ none) : Accounted c st' := by
  refine ⟨nodup_of_subperm hchunks hi.once, fun x hx => ?_, fun hok => absurd hok hresult,
    fun x hx => hi.real x (hnext ▸ hx)⟩
  rw [hnext]
  exact hi.below x (hchunks.subset hx)

section Points

variable (slots : Fin DEPTH → Slot) (s : Fin DEPTH) (first : Bool) (chunk : ℕ)

@[simp] theorem chunks_refill : (Point.refill s first).chunks slots = [] := rfl
@[simp] theorem chunks_target : (Point.target chunk s first).chunks slots = [chunk] := rfl
@[simp] theorem chunks_landed : (Point.landed s).chunks slots = [(slots s).chunk] := rfl
@[simp] theorem chunks_waiting : Point.waiting.chunks slots = [] := rfl
@[simp] theorem chunks_returned : Point.returned.chunks slots = [] := rfl

end Points

@[simp] theorem chunks_after (slots : Fin DEPTH → Slot) (s : Fin DEPTH) (first : Bool) :
    (after s first).chunks slots = [] := by
  obtain ⟨t, -, -, h⟩ | ⟨-, h⟩ := after_cases s first
  · rw [h, chunks_refill]
  · rw [h, chunks_waiting]

/-- The chunks in the slots do not depend on how much has arrived. -/
theorem chunk_arrived (l₁ l₂ : List Sqe) (q : Sqe) (n : ℕ) (s : Fin DEPTH) :
    ((arrived c st l₁ l₂ q n).slots s).chunk = (st.slots s).chunk := by
  unfold arrived
  dsimp only
  obtain rfl | hs := eq_or_ne s q.userData
  · rw [Function.update_self]
  · rw [Function.update_of_ne hs]

/-- The chunk of a read and those of the others. -/
theorem chunks_split {l₁ l₂ : List Sqe} {q : Sqe} (hpoint : st.point = .waiting)
    (hflight : st.flight = l₁ ++ q :: l₂) :
    (st.delivered ++ (((l₁ ++ l₂).map Sqe.userData).map fun s => (st.slots s).chunk) ++
      [(st.slots q.userData).chunk]).Perm st.chunks := by
  have husers := ((users_split hflight).map fun s => (st.slots s).chunk).symm
  rw [State.chunks, hpoint, chunks_waiting, List.append_nil, List.append_assoc]
  refine List.Perm.append_left _ (.trans ?_ husers)
  rw [List.map_cons]
  exact List.perm_append_singleton _ _

theorem Accounted.move (hs : Slotted c st) (hi : Accounted c st) {seen : Bool} (h : Moves c st seen st') : Accounted c st' := by
  have hsame (q : Sqe) (l₁ l₂ : List Sqe) (n : ℕ) :
      (fun s => ((arrived c st l₁ l₂ q n).slots s).chunk) = fun s => (st.slots s).chunk :=
    funext fun s => chunk_arrived l₁ l₂ q n s
  cases h with
  | skip s first hpoint hnone =>
    refine hi.of_perm ?_ rfl id
    simp only [State.chunks, State.users, hpoint, chunks_after, chunks_refill]
    rfl
  | take s first hpoint hsome =>
    have hchunks : st.chunks = st.delivered ++ st.users.map fun s => (st.slots s).chunk := by
      rw [State.chunks, hpoint, chunks_refill, List.append_nil]
    have honce := hi.once
    have hbelow := hi.below
    have hall := hi.all
    rw [hchunks] at honce hbelow hall
    refine ⟨?_, ?_, ?_, fun x hx => ?_⟩
    · refine List.nodup_append.mpr ⟨honce, List.nodup_singleton _, fun a ha b hb hab => ?_⟩
      have hlt := hbelow a ha
      rw [hab, List.mem_singleton.mp hb] at hlt
      exact Nat.lt_irrefl _ hlt
    · intro x hx
      obtain hx | hx := List.mem_append.mp hx
      · exact (hbelow x hx).trans (Nat.lt_succ_self _)
      · exact List.mem_singleton.mp hx ▸ Nat.lt_succ_self _
    · intro hok x hx
      obtain hx | rfl := Nat.lt_succ_iff_lt_or_eq.mp hx
      · exact List.mem_append_left _ (hall hok x hx)
      · exact List.mem_append_right _ (List.mem_singleton.mpr rfl)
    · obtain hx | rfl := Nat.lt_succ_iff_lt_or_eq.mp hx
      · exact hi.real x hx
      · exact hsome
  | leave hpoint hbusy =>
    refine hi.of_perm ?_ rfl id
    simp only [State.chunks, State.users, hpoint, chunks_returned, chunks_waiting]
    rfl
  | refused chunk s first err hpoint =>
    refine hi.of_failure (List.Sublist.subperm ?_) rfl (Option.some_ne_none err)
    simp only [State.chunks, State.users, fail, hpoint, chunks_target, chunks_waiting, List.append_nil]
    exact List.sublist_append_left _ _
  | asked chunk s first hpoint hfree =>
    have hout := hs.distinct
    rw [hpoint] at hout
    have hmap : st.users.map (fun t => ((taken c st chunk s).slots t).chunk) =
        st.users.map fun t => (st.slots t).chunk := by
      refine List.map_congr_left fun t ht => ?_
      have hne : t ≠ s := fun h => (List.nodup_append.mp hout).2.2 t ht s (List.mem_singleton.mpr rfl) h
      exact congrArg Slot.chunk (Function.update_of_ne hne _ _)
    have hnew : ((taken c st chunk s).slots s).chunk = chunk := by
      change (Function.update st.slots s _ s).chunk = chunk
      rw [Function.update_self]
    refine hi.of_perm ?_ rfl id
    simp only [State.chunks, State.users, hpoint, chunks_after, chunks_target, List.append_nil]
    rw [taken_users, List.map_append, hmap, List.map_singleton, hnew, List.append_assoc]
    rfl
  | broken l₁ l₂ q err hpoint hflight =>
    refine hi.of_failure (.trans (List.Sublist.subperm ?_) (chunks_split hpoint hflight).subperm) rfl (by simp)
    simp only [State.chunks, State.users, hpoint, chunks_waiting, List.append_nil]
    exact List.sublist_append_left _ _
  | whole l₁ l₂ q n hpoint hflight hn hlen hfile hwhole hok =>
    refine hi.of_perm (.trans (.of_eq ?_) (chunks_split hpoint hflight)) rfl id
    simp only [State.chunks, State.users, chunks_landed, chunk_arrived]
    rfl
  | late l₁ l₂ q n hpoint hflight hn hlen hfile hwhole hfailed =>
    refine hi.of_failure (.trans (List.Sublist.subperm ?_) (chunks_split hpoint hflight).subperm) rfl hfailed
    have hwaiting : (arrived c st l₁ l₂ q n).point = .waiting := hpoint
    rw [State.chunks, hwaiting, hsame, chunks_waiting, List.append_nil]
    exact List.sublist_append_left _ _
  | short l₁ l₂ q n hpoint hflight hn hlen hfile hshort =>
    refine hi.of_perm (.trans (.of_eq ?_) (chunks_split hpoint hflight)) rfl id
    have hwaiting : (submit (arrived c st l₁ l₂ q n) q.userData).point = .waiting := hpoint
    have hslots : (fun s => ((submit (arrived c st l₁ l₂ q n) q.userData).slots s).chunk) =
        fun s => (st.slots s).chunk := hsame q l₁ l₂ n
    have husers : (submit (arrived c st l₁ l₂ q n) q.userData).users =
        (l₁ ++ l₂).map Sqe.userData ++ [q.userData] := by
      simp only [State.users, submit, arrived, List.map_append, List.map_cons, List.map_nil, request]
    rw [State.chunks, hwaiting, hslots, chunks_waiting, List.append_nil, husers, List.map_append, ← List.append_assoc]
    rfl
  | handed s hpoint ups hups =>
    refine hi.of_perm ?_ rfl id
    simp only [State.chunks, State.users, hpoint, chunks_landed, chunks_refill, List.append_nil]
    rw [List.append_assoc, List.append_assoc]
    exact List.perm_append_comm.append_left _
  | dropped s err hpoint ups hups =>
    refine hi.of_failure (List.Sublist.subperm ?_) rfl (Option.some_ne_none err)
    simp only [State.chunks, State.users, fail, hpoint, chunks_landed, chunks_waiting, List.append_nil]
    exact List.sublist_append_left _ _
  | copied chunk s uploads hups => exact hi.of_perm (.refl _) rfl id
  | scribbled q i bytes hq hin => exact hi.of_perm (.refl _) rfl id

/-! ## Memory -/

/-- The area a slot is read into. -/
def reading (c : Config) (slots : Fin DEPTH → Slot) (s : Fin DEPTH) : Area :=
  ⟨c.target.place (slots s).chunk s, (slots s).chunk, (slots s).done⟩

def Point.areas (c : Config) (slots : Fin DEPTH → Slot) : Point → List Area
  | .landed s => [reading c slots s]
  | _ => []

/-- What has to stay in memory: slots that are to be copied, or the chunks themselves. -/
def State.kept (c : Config) (st : State) : List Area :=
  match c.target with
  | .device => st.uploads.map fun u => ⟨u.2, u.1, c.want u.1⟩
  | .host => st.delivered.map fun x => ⟨x, x, c.want x⟩

def State.areas (c : Config) (st : State) : List Area :=
  st.users.map (reading c st.slots) ++ st.point.areas c st.slots ++ st.kept c

/-- A slot with a chunk: its place and how much is wanted. -/
def Filled (c : Config) (slot : Slot) (s : Fin DEPTH) : Prop :=
  slot.ptr = c.target.place slot.chunk s * CHUNK ∧ slot.want = c.want slot.chunk

structure Placed (c : Config) (st : State) : Prop where
  filled : ∀ s ∈ st.users, Filled c (st.slots s) s
  whole : ∀ s, st.point = .landed s → Filled c (st.slots s) s ∧ (st.slots s).done = (st.slots s).want
  safe : Safe c st.mem (st.areas c)
  sent : c.target = .device → ∀ x ∈ st.delivered, x ∈ st.uploads.map Prod.fst ∨
    Copied c.file (ALIGN + x * CHUNK) st.vram (x * CHUNK) (c.want x)
  queue : c.target = .host → st.uploads = []

theorem kept_start (mem vram : List UInt8) : (start mem vram).kept c = [] := by
  unfold State.kept
  cases c.target <;> rfl

theorem placed_start (mem vram : List UInt8) : Placed c (start mem vram) := by
  refine ⟨nofun, nofun, ⟨?_, ?_⟩, fun _ => nofun, fun _ => rfl⟩
  · rw [State.areas, kept_start]
    exact List.nodup_nil
  · rw [State.areas, kept_start]
    nofun

theorem want_le (c : Config) (chunk : ℕ) : c.want chunk ≤ CHUNK := Nat.min_le_left _ _

section Points

variable (slots : Fin DEPTH → Slot) (s : Fin DEPTH) (first : Bool) (chunk : ℕ)

@[simp] theorem areas_refill : (Point.refill s first).areas c slots = [] := rfl
@[simp] theorem areas_target : (Point.target chunk s first).areas c slots = [] := rfl
@[simp] theorem areas_landed : (Point.landed s).areas c slots = [reading c slots s] := rfl
@[simp] theorem areas_waiting : Point.waiting.areas c slots = [] := rfl
@[simp] theorem areas_returned : Point.returned.areas c slots = [] := rfl

end Points

@[simp] theorem areas_after (slots : Fin DEPTH → Slot) (s : Fin DEPTH) (first : Bool) :
    (after s first).areas c slots = [] := by
  obtain ⟨t, -, -, h⟩ | ⟨-, h⟩ := after_cases s first
  · rw [h, areas_refill]
  · rw [h, areas_waiting]

/-- The area of a read and those of the others. -/
theorem areas_read {l₁ l₂ : List Sqe} {q : Sqe} (hflight : st.flight = l₁ ++ q :: l₂) :
    (reading c st.slots q.userData :: (((l₁ ++ l₂).map Sqe.userData).map (reading c st.slots) ++
      st.point.areas c st.slots ++ st.kept c)).Perm (st.areas c) := by
  have husers := ((users_split hflight).map (reading c st.slots)).symm
  exact (husers.append_right _).append_right _

theorem areas_split {l₁ l₂ : List Sqe} {q : Sqe} (hpoint : st.point = .waiting)
    (hflight : st.flight = l₁ ++ q :: l₂) :
    (reading c st.slots q.userData :: (((l₁ ++ l₂).map Sqe.userData).map (reading c st.slots) ++ st.kept c)).Perm
      (st.areas c) := by
  have hperm := areas_read (c := c) hflight
  rwa [hpoint, areas_waiting, List.append_nil] at hperm

/-- A step that leaves reads, memory and what is kept alone. -/
theorem Placed.of_point (hi : Placed c st) {point : Point} (hareas : point.areas c st.slots = []) (next : ℕ)
    (result : Option Failure) (hlanded : ∀ s, point ≠ .landed s) :
    Placed c { st with point, next, result } := by
  refine ⟨hi.filled, fun s h => absurd h (hlanded s), ?_, hi.sent, hi.queue⟩
  refine hi.safe.subperm (List.Sublist.subperm ?_)
  refine List.Sublist.append ?_ (.refl _)
  dsimp only
  rw [hareas, List.append_nil]
  exact List.sublist_append_left _ _

/-- Where a read lands, by its slot. -/
theorem request_place (hs : Slotted c st) (hi : Placed c st) {q : Sqe} (hq : q ∈ st.flight) :
    q.addr = (reading c st.slots q.userData).place * CHUNK + (reading c st.slots q.userData).done ∧
      q.off = ALIGN + (reading c st.slots q.userData).chunk * CHUNK + (reading c st.slots q.userData).done ∧
      (reading c st.slots q.userData).done + q.len = c.want (reading c st.slots q.userData).chunk := by
  obtain ⟨hrequest, hdone⟩ := hs.requests q hq
  obtain ⟨hptr, hwant⟩ := hi.filled q.userData (List.mem_map_of_mem hq)
  have haddr : q.addr = (st.slots q.userData).ptr + (st.slots q.userData).done := congrArg Sqe.addr hrequest
  have hoff : q.off = ALIGN + ((st.slots q.userData).chunk * CHUNK + (st.slots q.userData).done) :=
    congrArg Sqe.off hrequest
  have hlen : q.len = (st.slots q.userData).want - (st.slots q.userData).done := congrArg Sqe.len hrequest
  unfold reading
  dsimp only
  rw [haddr, hptr, hoff, hlen, ← hwant]
  exact ⟨rfl, (Nat.add_assoc _ _ _).symm, by omega⟩

theorem after_ne_landed (s t : Fin DEPTH) (first : Bool) : after s first ≠ .landed t := by
  obtain ⟨u, -, -, h⟩ | ⟨-, h⟩ := after_cases s first <;> rw [h] <;> nofun

/-- The place of a chunk that is taken up is not in use. -/
theorem place_free (hs : Slotted c st) (ha : Accounted c st) {chunk : ℕ} {s : Fin DEPTH} {first : Bool}
    (hpoint : st.point = .target chunk s first) (hfree : ∀ u ∈ st.uploads, u.2 ≠ s) :
    c.target.place chunk s ∉ (st.areas c).map Area.place := by
  have hdistinct := hs.distinct
  have honce := ha.once
  rw [hpoint] at hdistinct
  rw [State.chunks, hpoint, chunks_target] at honce
  have hslot : s ∉ st.users := fun h =>
    (List.nodup_append.mp hdistinct).2.2 s h s (List.mem_singleton.mpr rfl) rfl
  have hchunk : chunk ∉ st.delivered ++ st.users.map fun s => (st.slots s).chunk := fun h =>
    (List.nodup_append.mp honce).2.2 chunk h chunk (List.mem_singleton.mpr rfl) rfl
  intro hmem
  obtain ⟨a, hmem, hplace⟩ := List.mem_map.mp hmem
  rw [State.areas, hpoint, areas_target, List.append_nil, State.kept] at hmem
  obtain hmem | hmem := List.mem_append.mp hmem
  · obtain ⟨t, ht, rfl⟩ := List.mem_map.mp hmem
    cases htarget : c.target with
    | device =>
      rw [reading, htarget] at hplace
      exact hslot (Fin.ext hplace ▸ ht)
    | host =>
      rw [reading, htarget] at hplace
      have heq : (st.slots t).chunk = chunk := hplace
      exact hchunk (List.mem_append_right _ (heq ▸ List.mem_map_of_mem ht))
  · cases htarget : c.target with
    | device =>
      rw [htarget] at hmem hplace
      obtain ⟨u, hu, rfl⟩ := List.mem_map.mp hmem
      exact hfree u hu (Fin.ext hplace)
    | host =>
      rw [htarget] at hmem hplace
      obtain ⟨x, hx, rfl⟩ := List.mem_map.mp hmem
      have heq : x = chunk := hplace
      exact hchunk (List.mem_append_left _ (heq ▸ hx))

theorem Placed.asked (hs : Slotted c st) (ha : Accounted c st) (hi : Placed c st) {chunk : ℕ} {s : Fin DEPTH}
    {first : Bool} (hpoint : st.point = .target chunk s first) (hfree : ∀ u ∈ st.uploads, u.2 ≠ s) :
    Placed c { taken c st chunk s with point := after s first } := by
  have hdistinct := hs.distinct
  rw [hpoint] at hdistinct
  have hne : ∀ t ∈ st.users, t ≠ s := fun t ht h =>
    (List.nodup_append.mp hdistinct).2.2 t ht s (List.mem_singleton.mpr rfl) h
  have hself : (taken c st chunk s).slots s = ⟨chunk, c.target.place chunk s * CHUNK, c.want chunk, 0⟩ :=
    Function.update_self s _ _
  have hother : ∀ t ∈ st.users, (taken c st chunk s).slots t = st.slots t := fun t ht =>
    Function.update_of_ne (hne t ht) _ _
  refine ⟨?_, fun t h => absurd h (after_ne_landed s t first), ?_, hi.sent, hi.queue⟩
  · intro t ht
    rw [State.users, taken_users] at ht
    dsimp only
    obtain ht | ht := List.mem_append.mp ht
    · rw [hother t ht]
      exact hi.filled t ht
    · rw [List.mem_singleton.mp ht, hself]
      exact ⟨rfl, rfl⟩
  · have hmap : st.users.map (reading c (taken c st chunk s).slots) = st.users.map (reading c st.slots) :=
      List.map_congr_left fun t ht => by rw [reading, reading, hother t ht]
    have hnew : Safe c st.mem (⟨c.target.place chunk s, chunk, 0⟩ :: st.areas c) := by
      refine ⟨List.nodup_cons.mpr ⟨place_free hs ha hpoint hfree, hi.safe.apart⟩, ?_⟩
      exact List.forall_mem_cons.mpr ⟨⟨Nat.zero_le _, copied_zero⟩, hi.safe.bytes⟩
    refine hnew.subperm (List.Perm.subperm ?_)
    rw [State.areas, State.areas, hpoint, areas_target]
    dsimp only
    rw [areas_after, State.users, taken_users, List.map_append, hmap, List.map_singleton, reading, hself,
      List.append_nil, List.append_nil, List.append_assoc]
    exact List.perm_middle

section Arrived

variable {l₁ l₂ : List Sqe} {q : Sqe} {n : ℕ}

theorem arrived_self : (arrived c st l₁ l₂ q n).slots q.userData =
    { st.slots q.userData with done := (st.slots q.userData).done + n } :=
  Function.update_self q.userData _ _

theorem arrived_other {s : Fin DEPTH} (hs : s ≠ q.userData) :
    (arrived c st l₁ l₂ q n).slots s = st.slots s :=
  Function.update_of_ne hs _ _

theorem filled_arrived (hi : Placed c st) {s : Fin DEPTH} (hs : s ∈ st.users) :
    Filled c ((arrived c st l₁ l₂ q n).slots s) s := by
  have hfilled := hi.filled s hs
  obtain rfl | hne := eq_or_ne s q.userData
  · rw [arrived_self]
    exact hfilled
  · rw [arrived_other hne]
    exact hfilled

/-- What a read brings lands behind what its slot already has. -/
theorem safe_arrived (hs : Slotted c st) (hi : Placed c st) (hpoint : st.point = .waiting)
    (hflight : st.flight = l₁ ++ q :: l₂) (hlen : n ≤ q.len) (hfile : q.off + n ≤ c.file.length) :
    Safe c (arrived c st l₁ l₂ q n).mem (reading c (arrived c st l₁ l₂ q n).slots q.userData ::
      (((l₁ ++ l₂).map Sqe.userData).map (reading c (arrived c st l₁ l₂ q n).slots) ++ st.kept c)) := by
  have hq : q ∈ st.flight := by
    rw [hflight]
    exact List.mem_append_right _ List.mem_cons_self
  obtain ⟨haddr, hoff, hdone⟩ := request_place hs hi hq
  have hrest : ((l₁ ++ l₂).map Sqe.userData).map (reading c (arrived c st l₁ l₂ q n).slots) =
      ((l₁ ++ l₂).map Sqe.userData).map (reading c st.slots) := by
    refine List.map_congr_left fun s hmem => ?_
    have hne : s ≠ q.userData := fun h => (hs.others hflight).2 (h ▸ hmem)
    rw [reading, reading, arrived_other hne]
  have hsafe := hi.safe.subperm (areas_split hpoint hflight).subperm
  have hwant := want_le c (reading c st.slots q.userData).chunk
  have hfits : (reading c st.slots q.userData).done + n ≤ CHUNK := by omega
  have hmore := hsafe.extend hfits (hoff ▸ hfile)
  rw [hrest]
  have hself : reading c (arrived c st l₁ l₂ q n).slots q.userData =
      ⟨(reading c st.slots q.userData).place, (reading c st.slots q.userData).chunk,
        (reading c st.slots q.userData).done + n⟩ := by
    rw [reading, arrived_self, reading]
  rw [hself, arrived]
  dsimp only
  rw [haddr, hoff]
  exact hmore

/-- The program waits, or is at the slot that an answer has filled. -/
theorem Placed.answered (hi : Placed c st) {users : List (Fin DEPTH)} {flight : List Sqe} {busy : ℕ} {point : Point}
    (husers : flight.map Sqe.userData = users) (hsub : ∀ s ∈ users, s ∈ st.users)
    (hpoint : point = .waiting ∨ point = .landed q.userData ∧ q.userData ∈ st.users ∧
      (st.slots q.userData).done + n = (st.slots q.userData).want)
    (hsafe : Safe c (arrived c st l₁ l₂ q n).mem (users.map (reading c (arrived c st l₁ l₂ q n).slots) ++
      point.areas c (arrived c st l₁ l₂ q n).slots ++ st.kept c)) :
    Placed c { arrived c st l₁ l₂ q n with flight, busy, point } := by
  have hfilled : ∀ s ∈ st.users, Filled c ((arrived c st l₁ l₂ q n).slots s) s := fun s h => filled_arrived hi h
  refine ⟨fun s h => hfilled s (hsub s (husers ▸ h)), fun s h => ?_, ?_, hi.sent, hi.queue⟩
  · obtain hwait | ⟨hland, hmem, hdone⟩ := hpoint
    · exact absurd (hwait.symm.trans h) nofun
    · obtain rfl := Point.landed.inj (hland.symm.trans h)
      refine ⟨hfilled _ hmem, ?_⟩
      dsimp only
      rw [arrived_self]
      exact hdone
  · rw [State.areas, State.users, husers]
    exact hsafe

end Arrived

/-- A chunk that is handed over stays in memory, in its slot or in its place. -/
theorem kept_handed (hi : Placed c st) {s : Fin DEPTH} (hpoint : st.point = .landed s)
    {ups : List (ℕ × Fin DEPTH)} (hups : ups = match c.target with
      | .device => [((st.slots s).chunk, s)]
      | .host => []) :
    State.kept c { st with
      uploads := st.uploads ++ ups
      delivered := st.delivered ++ [(st.slots s).chunk]
      point := .refill s false } = st.kept c ++ [reading c st.slots s] := by
  obtain ⟨⟨-, hwant⟩, hwhole⟩ := hi.whole s hpoint
  rw [hups, State.kept, State.kept, reading, hwhole, hwant]
  cases c.target with
  | device => exact List.map_append
  | host => exact List.map_append

/-- A chunk that is not handed over may still be copied. -/
theorem kept_dropped (hi : Placed c st) {s : Fin DEPTH} (hpoint : st.point = .landed s)
    {ups : List (ℕ × Fin DEPTH)} (hups : ups = [] ∨ c.target = .device ∧ ups = [((st.slots s).chunk, s)])
    (err : Failure) :
    (State.kept c (fail { st with uploads := st.uploads ++ ups } err)).Sublist (st.kept c ++ [reading c st.slots s]) := by
  obtain ⟨⟨-, hwant⟩, hwhole⟩ := hi.whole s hpoint
  obtain rfl | ⟨htarget, rfl⟩ := hups
  · rw [List.append_nil]
    exact List.sublist_append_left _ _
  · rw [State.kept, State.kept, reading, hwhole, hwant, htarget, fail]
    exact List.map_append ▸ .refl _

theorem Placed.handed (hi : Placed c st) {s : Fin DEPTH} (hpoint : st.point = .landed s)
    {ups : List (ℕ × Fin DEPTH)} (hups : ups = match c.target with
      | .device => [((st.slots s).chunk, s)]
      | .host => []) :
    Placed c { st with
      uploads := st.uploads ++ ups
      delivered := st.delivered ++ [(st.slots s).chunk]
      point := .refill s false } := by
  refine ⟨hi.filled, nofun, ?_, fun htarget x hx => ?_, fun htarget => ?_⟩
  · refine hi.safe.subperm (List.Perm.subperm ?_)
    rw [State.areas, kept_handed hi hpoint hups, State.areas, hpoint, areas_landed, List.append_assoc]
    dsimp only
    rw [areas_refill, List.append_assoc, List.nil_append]
    exact List.perm_append_comm.append_left _
  · rw [htarget] at hups
    rw [hups, List.map_append]
    obtain hx | hx := List.mem_append.mp hx
    · exact (hi.sent htarget x hx).imp_left (List.mem_append_left _)
    · exact .inl (List.mem_append_right _ (by simpa using hx))
  · rw [htarget] at hups
    dsimp only
    rw [hups, List.append_nil]
    exact hi.queue htarget

theorem Placed.dropped (hi : Placed c st) {s : Fin DEPTH} (hpoint : st.point = .landed s)
    {ups : List (ℕ × Fin DEPTH)} (hups : ups = [] ∨ c.target = .device ∧ ups = [((st.slots s).chunk, s)])
    (err : Failure) : Placed c (fail { st with uploads := st.uploads ++ ups } err) := by
  refine ⟨hi.filled, nofun, ?_, fun htarget x hx => ?_, fun htarget => ?_⟩
  · have hkept := kept_dropped hi hpoint hups err
    have hareas : (st.users.map (reading c st.slots) ++ (st.kept c ++ [reading c st.slots s])).Perm (st.areas c) := by
      rw [State.areas, hpoint, areas_landed, List.append_assoc]
      exact List.perm_append_comm.append_left _
    refine hi.safe.subperm (.trans (List.Sublist.subperm ?_) hareas.subperm)
    have hwaiting : (fail { st with uploads := st.uploads ++ ups } err).point = .waiting := rfl
    rw [State.areas, hwaiting, areas_waiting, List.append_nil]
    exact hkept.append_left _
  · refine (hi.sent htarget x hx).imp_left fun h => ?_
    rw [fail, List.map_append]
    exact List.mem_append_left _ h
  · obtain rfl | ⟨hdevice, -⟩ := hups
    · rw [fail, List.append_nil]
      exact hi.queue htarget
    · rw [hdevice] at htarget
      cases htarget

theorem Placed.device_of_upload (hi : Placed c st) {u : ℕ × Fin DEPTH} (hu : u ∈ st.uploads) :
    c.target = .device := by
  cases htarget : c.target with
  | device => rfl
  | host =>
    rw [hi.queue htarget] at hu
    cases hu

theorem mem_kept (htarget : c.target = .device) {u : ℕ × Fin DEPTH} (hu : u ∈ st.uploads) :
    (⟨u.2, u.1, c.want u.1⟩ : Area) ∈ st.kept c := by
  rw [State.kept, htarget]
  exact List.mem_map_of_mem hu

/-- The stream copies a chunk that is whole. -/
theorem Placed.copied (hi : Placed c st) {chunk : ℕ} {s : Fin DEPTH} {uploads : List (ℕ × Fin DEPTH)}
    (hups : st.uploads = (chunk, s) :: uploads) : Placed c { st with
      uploads
      vram := put st.vram (chunk * CHUNK) (slice st.mem (s * CHUNK) (c.want chunk)) } := by
  have htarget := hi.device_of_upload (hups ▸ List.mem_cons_self)
  have hkept : st.kept c = ⟨s, chunk, c.want chunk⟩ :: uploads.map fun u => ⟨u.2, u.1, c.want u.1⟩ := by
    rw [State.kept, htarget, hups]
    rfl
  refine ⟨hi.filled, hi.whole, ?_, fun _ x hx => ?_, fun h => absurd (htarget.symm.trans h) nofun⟩
  · refine hi.safe.subperm (List.Sublist.subperm ?_)
    rw [State.areas, State.areas, hkept]
    refine List.Sublist.append (.refl _) ?_
    rw [State.kept, htarget]
    exact List.sublist_cons_self _ _
  · have hbytes := (hi.safe.bytes ⟨s, chunk, c.want chunk⟩ (by
      rw [State.areas, hkept]
      exact List.mem_append_right _ List.mem_cons_self)).2
    obtain rfl | hne := eq_or_ne x chunk
    · exact .inr hbytes.trans
    · obtain h | h := hi.sent htarget x hx
      · rw [hups, List.map_cons] at h
        exact .inl ((List.mem_cons.mp h).resolve_left hne)
      · refine .inr (h.put ?_)
        have hlen : (slice st.mem (s * CHUNK) (c.want chunk)).length ≤ c.want chunk := by
          rw [length_slice]
          exact Nat.min_le_left _ _
        have hx := want_le c x
        have hchunk := want_le c chunk
        obtain hap | hap := blocks_apart hne
        · exact .inl (by omega)
        · exact .inr (by omega)

theorem Placed.move (hs : Slotted c st) (ha : Accounted c st) (hi : Placed c st) {seen : Bool} (h : Moves c st seen st') :
    Placed c st' := by
  cases h with
  | skip s first hpoint hnone => exact hi.of_point (areas_after _ s first) st.next st.result fun t => after_ne_landed s t first
  | take s first hpoint hsome => exact hi.of_point rfl (st.next + 1) st.result fun t => nofun
  | leave hpoint hbusy => exact hi.of_point rfl st.next st.result fun t => nofun
  | refused chunk s first err hpoint => exact hi.of_point rfl st.next (some err) fun t => nofun
  | asked chunk s first hpoint hfree => exact hi.asked hs ha hpoint hfree
  | broken l₁ l₂ q err hpoint hflight =>
    refine ⟨fun s h => hi.filled s ?_, fun s h => absurd (hpoint.symm.trans h) nofun, ?_, hi.sent, hi.queue⟩
    · exact (users_split hflight).mem_iff.mpr (List.mem_cons_of_mem _ h)
    · refine (hi.safe.subperm (areas_split hpoint hflight).subperm).subperm (List.Sublist.subperm ?_)
      rw [State.areas]
      dsimp only
      rw [hpoint, areas_waiting, List.append_nil]
      exact List.sublist_cons_self _ _
  | whole l₁ l₂ q n hpoint hflight hn hlen hfile hwhole hok =>
    have hsafe := safe_arrived hs hi hpoint hflight hlen hfile
    have hq : q.userData ∈ st.users := (users_split hflight).mem_iff.mpr List.mem_cons_self
    refine hi.answered rfl (fun s h => ?_) (.inr ⟨rfl, hq, hwhole⟩) (hsafe.subperm (List.Perm.subperm ?_))
    · exact (users_split hflight).mem_iff.mpr (List.mem_cons_of_mem _ h)
    · rw [areas_landed, List.append_assoc]
      exact List.perm_middle
  | late l₁ l₂ q n hpoint hflight hn hlen hfile hwhole hfailed =>
    have hsafe := safe_arrived hs hi hpoint hflight hlen hfile
    have hstate : arrived c st l₁ l₂ q n = { arrived c st l₁ l₂ q n with point := .waiting } := by
      rw [← hpoint, arrived]
    rw [hstate]
    refine hi.answered rfl (fun s h => ?_) (.inl rfl) (hsafe.subperm (List.Sublist.subperm ?_))
    · exact (users_split hflight).mem_iff.mpr (List.mem_cons_of_mem _ h)
    · rw [areas_waiting, List.append_nil]
      exact List.sublist_cons_self _ _
  | short l₁ l₂ q n hpoint hflight hn hlen hfile hshort =>
    have hsafe := safe_arrived hs hi hpoint hflight hlen hfile
    have hq : q.userData ∈ st.users := (users_split hflight).mem_iff.mpr List.mem_cons_self
    have husers : (submit (arrived c st l₁ l₂ q n) q.userData).flight.map Sqe.userData =
        (l₁ ++ l₂).map Sqe.userData ++ [q.userData] := by
      simp only [submit, arrived, List.map_append, List.map_cons, List.map_nil, request]
    have hstate : submit (arrived c st l₁ l₂ q n) q.userData = { arrived c st l₁ l₂ q n with
        flight := (submit (arrived c st l₁ l₂ q n) q.userData).flight, busy := (arrived c st l₁ l₂ q n).busy + 1,
        point := .waiting } := by
      rw [← hpoint, submit, arrived]
    rw [hstate]
    refine hi.answered husers (fun s h => ?_) (.inl rfl) (hsafe.subperm (List.Perm.subperm ?_))
    · obtain h | h := List.mem_append.mp h
      · exact (users_split hflight).mem_iff.mpr (List.mem_cons_of_mem _ h)
      · exact List.mem_singleton.mp h ▸ hq
    · rw [areas_waiting, List.append_nil, List.map_append, List.map_singleton, List.append_assoc]
      exact List.perm_middle
  | handed s hpoint ups hups => exact hi.handed hpoint hups
  | dropped s err hpoint ups hups => exact hi.dropped hpoint hups err
  | copied chunk s uploads hups => exact hi.copied hups
  | scribbled q i bytes hq hin =>
    refine ⟨hi.filled, hi.whole, ?_, hi.sent, hi.queue⟩
    obtain ⟨haddr, -, hdone⟩ := request_place hs hi hq
    obtain ⟨l₁, l₂, hflight⟩ := List.append_of_mem hq
    have hwant := want_le c (reading c st.slots q.userData).chunk
    have hsafe := hi.safe.subperm (areas_read hflight).subperm
    have hwrite := @Safe.write _ _ _ _ hsafe (q.addr + i) bytes (by omega) (by omega)
    exact hwrite.subperm (areas_read hflight).symm.subperm

end Chatlink.Wpk.Load
