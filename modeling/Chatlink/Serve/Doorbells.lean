import Chatlink.Serve.Loop

/-!
# One connection

What holds of a connection whatever the daemon is doing: its last messages answer its
requests in order and with their numbers, the cancel flag stands for a cancel rung since the
last request that was read, and an answer is cut off for a cancel of its own.
-/
namespace Chatlink.Serve

/-- The cancel flag after these doorbells. -/
def cancelFlag (bs : List Bell) : Bool :=
  bs.foldl (fun f b => b = .cancel || f && b ≠ .request) false

/-- A cancel was rung after request `j` (the first is 0) and before the next one. -/
def CancelRung (bs : List Bell) (j : ℕ) : Prop :=
  ∃ before after, bs = before ++ .cancel :: after ∧ before.count .request = j + 1

theorem CancelRung.append {bs : List Bell} {j : ℕ} (h : CancelRung bs j) (cs : List Bell) :
    CancelRung (bs ++ cs) j := by
  obtain ⟨before, after, rfl, hcount⟩ := h
  exact ⟨before, after ++ cs, by simp, hcount⟩

theorem cancelFlag_snoc (bs : List Bell) (b : Bell) :
    cancelFlag (bs ++ [b]) = (b = .cancel || cancelFlag bs && b ≠ .request) := by
  simp [cancelFlag]

/-- The flag stands for a cancel of the last request. -/
theorem cancelRung_of_flag {bs : List Bell} {j : ℕ} (h : cancelFlag bs = true)
    (hcount : bs.count .request = j + 1) : CancelRung bs j := by
  induction bs using List.reverseRecOn with
  | nil => simp [cancelFlag] at h
  | append_singleton bs b ih =>
    rw [cancelFlag_snoc] at h
    cases b with
    | request => simp at h
    | cancel =>
      rw [List.count_append] at hcount
      exact ⟨bs, [], rfl, by simpa using hcount⟩

namespace Conn

/-- Requests among the doorbells that were read. -/
def heard (c : Conn) : ℕ := (c.rung.take c.got).count .request

/-- What every connection keeps. -/
structure Ok (c : Conn) : Prop where
  numbers : c.lasts.map Answer.id <+: c.asked
  outstanding : c.asked.length ≤ c.lasts.length + 1
  rung : c.rung.count .request = c.asked.length
  area : c.asked ≠ [] → c.asked.getLast? = some (read c.area).1
  got : c.got ≤ c.rung.length
  lasts_le : c.lasts.length ≤ c.heard
  flag : c.cancel = true → cancelFlag (c.rung.take c.got) = true
  cancelled : ∀ j i, c.lasts[j]? = some (.error i Serve.cancelled) →
    CancelRung c.rung j ∨ c.open_ = false
  mine : ∀ a ∈ c.out, a.id ∈ c.asked
  ring : c.ends.getLast?.getD c.tail = c.head

theorem ok_new : Ok {} where
  numbers := List.prefix_rfl
  outstanding := Nat.zero_le _
  rung := rfl
  area := fun h => absurd rfl h
  got := Nat.zero_le _
  lasts_le := Nat.zero_le _
  flag := nofun
  cancelled := nofun
  mine := nofun
  ring := rfl

variable {c : Conn}

theorem Ok.heard_le (h : c.Ok) : c.heard ≤ c.asked.length := by
  rw [← h.rung]
  exact (List.take_sublist c.got c.rung).count_le _

/-- While a request is read and not answered, it is the last one asked. -/
theorem Ok.pending (h : c.Ok) (hheard : c.heard = c.lasts.length + 1) :
    c.asked = c.lasts.map Answer.id ++ [(read c.area).1] := by
  obtain ⟨rest, hrest⟩ := h.numbers
  have hle := h.heard_le
  have houtstanding := h.outstanding
  have hlength : rest.length = 1 := by
    have hsum := congrArg List.length hrest
    rw [List.length_append, List.length_map] at hsum
    omega
  obtain ⟨x, rfl⟩ := List.length_eq_one_iff.mp hlength
  have hne : c.asked ≠ [] := by
    rw [← hrest]
    exact List.append_ne_nil_of_right_ne_nil _ (List.cons_ne_nil x [])
  have hlast := h.area hne
  rw [← hrest, List.getLast?_append, List.getLast?_singleton] at hlast
  rw [← hrest, ← Option.some.inj hlast]

/-! ### The client's steps -/

theorem heard_rung (h : c.Ok) (b : Bell) : heard { c with rung := c.rung ++ [b] } = c.heard := by
  simp only [heard]
  rw [List.take_append_of_le_length h.got]

/-- The client rings for a request once the one before is answered. -/
theorem Ok.request (h : c.Ok) (hall : c.lasts.length = c.asked.length) (area : List UInt8) :
    Ok { c with area, rung := c.rung ++ [.request], asked := c.asked ++ [(read area).1] } where
  numbers := h.numbers.trans (List.prefix_append _ _)
  outstanding := by
    change (c.asked ++ [(read area).1]).length ≤ c.lasts.length + 1
    rw [List.length_append, List.length_singleton]
    omega
  rung := by
    change (c.rung ++ [Bell.request]).count Bell.request = (c.asked ++ [(read area).1]).length
    rw [List.count_append, h.rung, List.length_append]
    rfl
  area := fun _ => by simp
  got := h.got.trans (by simp)
  lasts_le := h.lasts_le.trans (heard_rung h .request).ge
  flag := by
    intro hflag
    change cancelFlag ((c.rung ++ [Bell.request]).take c.got) = true
    rw [List.take_append_of_le_length h.got]
    exact h.flag hflag
  cancelled := fun j i hj => (h.cancelled j i hj).imp_left (·.append _)
  mine := fun a ha => List.mem_append_left _ (h.mine a ha)
  ring := h.ring

theorem Ok.cancelRung (h : c.Ok) : Ok { c with rung := c.rung ++ [.cancel] } where
  numbers := h.numbers
  outstanding := h.outstanding
  rung := by
    change (c.rung ++ [Bell.cancel]).count Bell.request = c.asked.length
    rw [List.count_append, h.rung]
    rfl
  area := h.area
  got := h.got.trans (by simp)
  lasts_le := h.lasts_le.trans (heard_rung h .cancel).ge
  flag := by
    intro hflag
    change cancelFlag ((c.rung ++ [Bell.cancel]).take c.got) = true
    rw [List.take_append_of_le_length h.got]
    exact h.flag hflag
  cancelled := fun j i hj => (h.cancelled j i hj).imp_left (·.append _)
  mine := h.mine
  ring := h.ring

theorem Ok.close (h : c.Ok) : Ok { c with open_ := false } :=
  { h with cancelled := fun _ _ _ => .inr rfl }

/-- The client moves the tail to the first of the positions. -/
theorem Ok.setTail (h : c.Ok) {tail : ℕ} {ends : List ℕ} (hends : c.ends = tail :: ends) : Ok { c with tail, ends } := by
  refine { h with ring := ?_ }
  have hring := h.ring
  rw [hends, List.getLast?_cons] at hring
  exact hring

theorem Ok.setQueued (h : c.Ok) (q : Bool) : Ok { c with queued := q } := { h with }

theorem Ok.clearCancel (h : c.Ok) (q : Bool) : Ok { c with queued := q, cancel := false } :=
  { h with flag := nofun }

/-! ### The daemon's steps -/

/-- Reading one doorbell. -/
theorem Ok.hear (h : c.Ok) {b : Bell} {bs : List Bell} (hb : c.unread = b :: bs) :
    (c.hear b).Ok ∧ (c.hear b).unread = bs ∧ (c.hear b).heard = c.heard + [b].count .request := by
  have hlt : c.got < c.rung.length := by
    by_contra hge
    rw [unread, List.drop_eq_nil_of_le (not_lt.mp hge)] at hb
    cases hb
  have hget : c.rung.take (c.got + 1) = c.rung.take c.got ++ [b] := by
    rw [List.take_succ_eq_append_getElem hlt]
    rw [unread, List.drop_eq_getElem_cons hlt] at hb
    rw [(List.cons.inj hb).1]
  have hrest : (c.hear b).unread = bs := by
    change c.rung.drop (c.got + 1) = bs
    rw [unread, List.drop_eq_getElem_cons hlt] at hb
    exact (List.cons.inj hb).2
  have hheard : (c.hear b).heard = c.heard + [b].count .request := by
    change (c.rung.take (c.got + 1)).count Bell.request = _
    rw [hget, List.count_append]
    rfl
  refine ⟨?_, hrest, hheard⟩
  refine { h with got := hlt, lasts_le := ?_, flag := ?_ }
  · exact h.lasts_le.trans (by rw [hheard]; exact Nat.le_add_right _ _)
  · intro hflag
    change cancelFlag (c.rung.take (c.got + 1)) = true
    rw [hget, cancelFlag_snoc]
    change (decide (b = .cancel) || c.cancel && decide (b ≠ .request)) = true at hflag
    cases b with
    | cancel => rfl
    | request => simp at hflag

/-- What reading doorbells leaves as it is. -/
theorem hearAll_same (bs : List Bell) (c : Conn) :
    (bs.foldl hear c).rung = c.rung ∧ (bs.foldl hear c).asked = c.asked ∧
    (bs.foldl hear c).area = c.area ∧ (bs.foldl hear c).out = c.out ∧
    (bs.foldl hear c).queued = c.queued ∧ (bs.foldl hear c).open_ = c.open_ := by
  induction bs generalizing c with
  | nil => exact ⟨rfl, rfl, rfl, rfl, rfl, rfl⟩
  | cons b bs ih => exact ih (c.hear b)

theorem Ok.hears {bs rest : List Bell} (h : c.Ok) (hbs : c.unread = bs ++ rest) :
    (bs.foldl Conn.hear c).Ok ∧ (bs.foldl Conn.hear c).unread = rest ∧
      (bs.foldl Conn.hear c).heard = c.heard + bs.count .request := by
  induction bs generalizing c with
  | nil => exact ⟨h, hbs, rfl⟩
  | cons b bs ih =>
    obtain ⟨hok, hunread, hheard⟩ := h.hear hbs
    obtain ⟨hok', hunread', hheard'⟩ := ih hok hunread
    refine ⟨hok', hunread', ?_⟩
    rw [List.foldl_cons, hheard', hheard, add_assoc, ← List.count_append]
    rfl

theorem Ok.hearAll (h : c.Ok) (n : ℕ) :
    (c.hearAll n).Ok ∧ (c.hearAll n).unread = c.unread.drop n ∧
      (c.hearAll n).heard = c.heard + (c.unread.take n).count .request :=
  h.hears (List.take_append_drop n c.unread).symm

theorem hearAll_lasts (c : Conn) (n : ℕ) : (c.hearAll n).lasts = c.lasts := by
  rw [lasts, lasts, Conn.hearAll, (hearAll_same _ c).2.2.2.1]

/-- The last position to which the tail will move is the head. -/
theorem ring_say {a : Answer} (h : c.ends.getLast?.getD c.tail = c.head) :
    (c.say a).ends.getLast?.getD (c.say a).tail = (c.say a).head := by
  by_cases hroom : c.HasRoom a
  · simp [say, hroom]
  · simp [say, hroom, h]

theorem lasts_say {a : Answer} : (c.say a).lasts = if a.isLast then c.lasts ++ [a] else c.lasts := by
  simp only [lasts, say, List.filter_append]
  cases h : a.isLast with
  | true => simp [h]
  | false => simp [h]

/-- A text of the request that is being answered. -/
theorem Ok.sayText (h : c.Ok) (hheard : c.heard = c.lasts.length + 1) (t : String) :
    (c.say (.text (read c.area).1 t)).Ok := by
  have hlasts : (c.say (.text (read c.area).1 t)).lasts = c.lasts := lasts_say
  refine { h with numbers := ?_, outstanding := ?_, lasts_le := ?_, cancelled := ?_, mine := ?_, ring := ring_say h.ring }
  · rw [hlasts]
    exact h.numbers
  · rw [hlasts]
    exact h.outstanding
  · rw [hlasts]
    exact h.lasts_le
  · rw [hlasts]
    exact h.cancelled
  · intro a ha
    rcases List.mem_append.mp ha with ha | ha
    · exact h.mine a ha
    · obtain rfl := List.mem_singleton.mp ha
      change (read c.area).1 ∈ c.asked
      rw [h.pending hheard]
      exact List.mem_append_right _ List.mem_cons_self

/-- The last message of the request that is being answered. -/
theorem Ok.sayLast {a : Answer} (h : c.Ok) (hheard : c.heard = c.lasts.length + 1)
    (ha : a.Ends (read c.area).1)
    (hcancelled : ∀ i, a = .error i Serve.cancelled →
      CancelRung c.rung c.lasts.length ∨ c.open_ = false) :
    (c.say a).Ok := by
  have hlasts : (c.say a).lasts = c.lasts ++ [a] := by
    rw [lasts_say, if_pos ha.2]
  have hasked := h.pending hheard
  refine { h with numbers := ?_, outstanding := ?_, lasts_le := ?_, cancelled := ?_, mine := ?_, ring := ring_say h.ring }
  · rw [hlasts, List.map_append, List.map_singleton, ha.1, ← hasked]
    exact List.prefix_rfl
  · rw [hlasts, List.length_append]
    exact h.outstanding.trans (Nat.le_add_right _ 1)
  · rw [hlasts, List.length_append, List.length_singleton]
    exact hheard.ge
  · intro j i hj
    rw [hlasts, List.getElem?_append] at hj
    split at hj
    · exact h.cancelled j i hj
    · next hlt =>
      rw [List.getElem?_singleton] at hj
      split at hj
      · next hzero =>
        obtain rfl : j = c.lasts.length := by omega
        exact hcancelled i (Option.some.inj hj)
      · cases hj
  · intro b hb
    rcases List.mem_append.mp hb with hb | hb
    · exact h.mine b hb
    · obtain rfl := List.mem_singleton.mp hb
      change b.id ∈ c.asked
      rw [ha.1, hasked]
      exact List.mem_append_right _ List.mem_cons_self

/-- The flag is a cancel of the request that is being answered. -/
theorem Ok.flag_own (h : c.Ok) (hheard : c.heard = c.lasts.length + 1) (hflag : c.cancel = true) :
    CancelRung c.rung c.lasts.length := by
  have hrung := cancelRung_of_flag (h.flag hflag) hheard
  have happend := hrung.append (c.rung.drop c.got)
  rwa [List.take_append_drop] at happend

end Conn

end Chatlink.Serve
