import Chatlink.Net.Tls

/-!
# Where the network cuts the stream

A call of `receive` takes the whole records at the start of its input and leaves the rest, so a
later call on the rest and what follows it goes on where the first one stopped.
-/
namespace Chatlink.Net

open Fallible

variable {cfg : Config} {e e' : Exchange} {wire a b : List UInt8} {fuel fuel' used len : ℕ}

/-- What `receive` does with the record at the start of its input. -/
inductive Head where
  /-- The session is closed or the record is not whole yet. -/
  | wait
  | refused (alert : Alert)
  | whole (len : ℕ)

def head (s : Session) (wire : List UInt8) : Head :=
  if s.state = .closed ∨ wire.length < HEADER then .wait
  else if wire.getD 1 0 ≠ 3 then .refused .decodeError
  else if (if s.read.isSome then MAX_RECORD else MAX_PLAIN) < recordLength wire then
    .refused .recordOverflow
  else if wire.length < HEADER + recordLength wire then .wait
  else .whole (recordLength wire)

def turn (cfg : Config) (loop : List UInt8 → ℕ → Tls ℕ) (wire : List UInt8) (used : ℕ) : Head → Tls ℕ
  | .wait => pure used
  | .refused a => abort cfg.crypto (.locally a)
  | .whole len => do
    guardedRecord cfg (wire.take HEADER) ((wire.drop HEADER).take len)
    loop (wire.drop (HEADER + len)) (used + HEADER + len)

theorem turn_whole {loop : List UInt8 → ℕ → Tls ℕ} : turn cfg loop wire used (.whole len) = (do
    guardedRecord cfg (wire.take HEADER) ((wire.drop HEADER).take len)
    loop (wire.drop (HEADER + len)) (used + HEADER + len)) := rfl

/-- An abort never comes back. -/
theorem after_abort (c : Crypto) (err : TlsError) (e : Exchange) (α : Type) :
    ∃ f e', after (abort c err : Tls α) e = (.error f, e') := by
  unfold abort
  cases err with
  | peer code => exact ⟨_, _, rfl⟩
  | locally a =>
    cases h : after (alert c a) e with
    | mk r e' =>
      cases r with
      | error f => exact ⟨f, e', after_bind_error h⟩
      | ok u => exact ⟨_, _, after_bind_ok h⟩

theorem receiveFrom_succ :
    receiveFrom cfg (fuel + 1) wire used =
      Tls.session >>= fun s => turn cfg (receiveFrom cfg fuel) wire used (head s wire) := by
  rw [receiveFrom]
  congr 1
  funext s
  unfold head
  dsimp only
  split_ifs <;> rfl

theorem receiveFrom_nil : after (receiveFrom cfg fuel [] used) e = (.ok used, e) := by
  cases fuel with
  | zero => rfl
  | succ fuel =>
    have hhead : head e.session [] = .wait := by simp [head, HEADER]
    calc after (receiveFrom cfg (fuel + 1) [] used) e
        = after (turn cfg (receiveFrom cfg fuel) [] used (head e.session [])) e := by
          rw [receiveFrom_succ]
          rfl
      _ = (.ok used, e) := by
          rw [hhead]
          rfl

theorem after_receiveFrom_succ : after (receiveFrom cfg (fuel + 1) wire used) e =
    after (turn cfg (receiveFrom cfg fuel) wire used (head e.session wire)) e := by
  rw [receiveFrom_succ]
  rfl

theorem receiveFrom_fuel (h : wire.length ≤ fuel) (h' : wire.length ≤ fuel') :
    after (receiveFrom cfg fuel wire used) e = after (receiveFrom cfg fuel' wire used) e := by
  induction fuel generalizing fuel' wire used e with
  | zero =>
    obtain rfl : wire = [] := List.length_eq_zero_iff.mp (by omega)
    rw [receiveFrom_nil, receiveFrom_nil]
  | succ fuel ih =>
    cases fuel' with
    | zero =>
      obtain rfl : wire = [] := List.length_eq_zero_iff.mp (by omega)
      rw [receiveFrom_nil, receiveFrom_nil]
    | succ fuel' =>
      rw [after_receiveFrom_succ, after_receiveFrom_succ]
      cases head e.session wire with
      | wait => rfl
      | refused a => rfl
      | whole len =>
        have hlen : (wire.drop (HEADER + len)).length ≤ wire.length - 1 := by
          simp only [List.length_drop, HEADER]
          omega
        rw [turn_whole, turn_whole]
        cases hr : after (guardedRecord cfg (wire.take HEADER) ((wire.drop HEADER).take len)) e with
        | mk r e' =>
          cases r with
          | error f => rw [after_bind_error hr, after_bind_error hr]
          | ok u =>
            rw [after_bind_ok hr, after_bind_ok hr]
            exact ih (by omega) (by omega)

/-- The loop with as many turns as it may need. -/
def loop (cfg : Config) (wire : List UInt8) (used : ℕ) : Tls ℕ :=
  receiveFrom cfg wire.length wire used

theorem after_loop : after (loop cfg wire used) e =
    after (turn cfg (loop cfg) wire used (head e.session wire)) e := by
  have hfuel : after (loop cfg wire used) e = after (receiveFrom cfg (wire.length + 1) wire used) e :=
    receiveFrom_fuel le_rfl (by omega)
  rw [hfuel, after_receiveFrom_succ]
  cases head e.session wire with
  | wait => rfl
  | refused a => rfl
  | whole len =>
    rw [turn_whole, turn_whole]
    cases hr : after (guardedRecord cfg (wire.take HEADER) ((wire.drop HEADER).take len)) e with
    | mk r e' =>
      cases r with
      | error f => rw [after_bind_error hr, after_bind_error hr]
      | ok u =>
        rw [after_bind_ok hr, after_bind_ok hr]
        exact receiveFrom_fuel (by simp only [List.length_drop]; omega) le_rfl

/-- The three ways the loop may go on. -/
theorem loop_wait (h : head e.session wire = .wait) : after (loop cfg wire used) e = (.ok used, e) := by
  rw [after_loop, h]
  rfl

theorem loop_refused {alert : Alert} (h : head e.session wire = .refused alert) :
    after (loop cfg wire used) e = after (abort cfg.crypto (.locally alert) : Tls ℕ) e := by
  rw [after_loop, h]
  rfl

theorem loop_failed {f : Fault} (h : head e.session wire = .whole len)
    (hr : after (guardedRecord cfg (wire.take HEADER) ((wire.drop HEADER).take len)) e = (.error f, e')) :
    after (loop cfg wire used) e = (.error f, e') := by
  rw [after_loop, h, turn_whole, after_bind_error hr]

theorem loop_next {u : Unit} (h : head e.session wire = .whole len)
    (hr : after (guardedRecord cfg (wire.take HEADER) ((wire.drop HEADER).take len)) e = (.ok u, e')) :
    after (loop cfg wire used) e =
      after (loop cfg (wire.drop (HEADER + len)) (used + HEADER + len)) e' := by
  rw [after_loop, h, turn_whole, after_bind_ok hr]

/-- A whole record is taken off the input. -/
theorem length_drop_of_whole {s : Session} (h : head s wire = .whole len) :
    HEADER + len ≤ wire.length ∧ len = recordLength wire := by
  unfold head at h
  generalize (if s.read.isSome then MAX_RECORD else MAX_PLAIN) = limit at h
  split_ifs at h
  obtain rfl := Head.whole.inj h
  exact ⟨by omega, rfl⟩

/-- The count only adds up. -/
theorem loop_add (n : ℕ) : after (loop cfg wire (n + used)) e =
    after (loop cfg wire used >>= fun m => pure (n + m)) e := by
  induction hlen : wire.length using Nat.strong_induction_on generalizing wire e used with
  | _ k ih =>
    cases hh : head e.session wire with
    | wait =>
      rw [loop_wait hh, after_bind_ok (loop_wait hh)]
      rfl
    | refused a =>
      obtain ⟨f, e', hf⟩ := after_abort cfg.crypto (.locally a) e ℕ
      rw [loop_refused hh, hf, after_bind_error ((loop_refused hh).trans hf)]
    | whole len =>
      have hdrop := (length_drop_of_whole hh).1
      cases hr : after (guardedRecord cfg (wire.take HEADER) ((wire.drop HEADER).take len)) e with
      | mk r e' =>
        cases r with
        | error f => rw [loop_failed hh hr, after_bind_error (loop_failed hh hr)]
        | ok u =>
          have hnext := @ih (wire.drop (HEADER + len)).length
            (by simp only [List.length_drop, HEADER] at *; omega) e' (wire.drop (HEADER + len))
            (used + HEADER + len) rfl
          rw [loop_next hh hr, Nat.add_assoc n, Nat.add_assoc n, hnext]
          cases hl : after (loop cfg (wire.drop (HEADER + len)) (used + HEADER + len)) e' with
          | mk r' e'' =>
            have hl' := (loop_next hh hr).trans hl
            cases r' with
            | error f => rw [after_bind_error hl, after_bind_error hl']
            | ok m => rw [after_bind_ok hl, after_bind_ok hl']

/-- More input does not change what is seen of a record that does not wait for it. -/
theorem head_append {s : Session} (h : head s a ≠ .wait) (b : List UInt8) :
    head s (a ++ b) = head s a := by
  unfold head at h ⊢
  by_cases hclosed : s.state = .closed
  · simp [hclosed] at h
  by_cases hshort : a.length < HEADER
  · simp [hshort] at h
  have hlen : ¬(a ++ b).length < HEADER := by
    simp only [List.length_append]
    omega
  have hbyte : (a ++ b).getD 1 0 = a.getD 1 0 := by
    simp only [HEADER] at hshort
    simp [List.getD, List.getElem?_append_left (show 1 < a.length by omega)]
  have hrecord : recordLength (a ++ b) = recordLength a := by
    simp only [HEADER] at hshort
    simp only [recordLength]
    rw [List.drop_append_of_le_length (by omega),
      List.take_append_of_le_length (by simp only [List.length_drop]; omega)]
  simp only [hclosed, hshort, hlen, hbyte, hrecord, or_self, if_false] at h ⊢
  generalize (if s.read.isSome then MAX_RECORD else MAX_PLAIN) = limit at h ⊢
  by_cases hversion : a.getD 1 0 ≠ 3
  · simp only [if_pos hversion]
  by_cases hlimit : limit < recordLength a
  · simp only [if_neg hversion, if_pos hlimit]
  -- the record is whole in `a` already
  have hwhole : ¬a.length < HEADER + recordLength a := by
    intro hwait
    simp only [if_neg hversion, if_neg hlimit, if_pos hwait] at h
    exact h rfl
  have hwhole' : ¬(a ++ b).length < HEADER + recordLength a := by
    simp only [List.length_append]
    omega
  simp only [if_neg hversion, if_neg hlimit, if_neg hwhole, if_neg hwhole']

/-- What follows a whole record in its input is left for the next turn. -/
theorem take_append_of_whole {s : Session} (h : head s a = .whole len) (b : List UInt8) :
    (a ++ b).take HEADER = a.take HEADER ∧
      ((a ++ b).drop HEADER).take len = (a.drop HEADER).take len ∧
      (a ++ b).drop (HEADER + len) = a.drop (HEADER + len) ++ b := by
  have hlen := (length_drop_of_whole h).1
  refine ⟨List.take_append_of_le_length (by omega), ?_, List.drop_append_of_le_length hlen⟩
  rw [List.drop_append_of_le_length (by omega), List.take_append_of_le_length]
  simp only [List.length_drop]
  omega

theorem loop_append (b : List UInt8) : after (loop cfg (a ++ b) used) e =
    after (loop cfg a 0 >>= fun n => loop cfg (a.drop n ++ b) (used + n)) e := by
  induction hlen : a.length using Nat.strong_induction_on generalizing a e used with
  | _ k ih =>
    cases hh : head e.session a with
    | wait => rw [after_bind_ok (loop_wait hh), List.drop_zero, Nat.add_zero]
    | refused alert =>
      have hh' : head e.session (a ++ b) = .refused alert := by
        rw [head_append (by rw [hh]; nofun), hh]
      obtain ⟨f, e', hf⟩ := after_abort cfg.crypto (.locally alert) e ℕ
      rw [loop_refused hh', hf, after_bind_error ((loop_refused hh).trans hf)]
    | whole len =>
      have hh' : head e.session (a ++ b) = .whole len := by
        rw [head_append (by rw [hh]; nofun), hh]
      have hdrop := (length_drop_of_whole hh).1
      obtain ⟨hheader, hbody, hrest⟩ := take_append_of_whole hh b
      cases hr : after (guardedRecord cfg (a.take HEADER) ((a.drop HEADER).take len)) e with
      | mk r e' =>
        have hr' := hr
        rw [← hheader, ← hbody] at hr'
        cases r with
        | error f => rw [loop_failed hh' hr', after_bind_error (loop_failed hh hr)]
        | ok u =>
          have hnext := @ih (a.drop (HEADER + len)).length
            (by simp only [List.length_drop, HEADER] at *; omega) e' (a.drop (HEADER + len))
            (used + HEADER + len) rfl
          have hshift : after (loop cfg a 0) e =
              after (loop cfg (a.drop (HEADER + len)) 0 >>= fun m => pure (HEADER + len + m)) e' := by
            rw [loop_next hh hr, Nat.zero_add, ← loop_add, Nat.add_zero]
          rw [loop_next hh' hr', hrest, hnext]
          cases hl : after (loop cfg (a.drop (HEADER + len)) 0) e' with
          | mk r' e'' =>
            cases r' with
            | error f =>
              rw [after_bind_error hl, after_bind_error (hshift.trans (after_bind_error hl))]
            | ok m =>
              rw [after_bind_ok hl, after_bind_ok (hshift.trans (after_bind_ok hl)), List.drop_drop,
                Nat.add_assoc used, Nat.add_assoc used]

/-- A whole record is whole in any start of the input that holds it. -/
theorem head_take_of_whole {s : Session} {k : ℕ} (h : head s wire = .whole len) (hk : HEADER + len ≤ k) :
    head s (wire.take k) = .whole len := by
  obtain ⟨hlen, rfl⟩ := length_drop_of_whole h
  have hne : head s (wire.take k) ≠ .wait := by
    unfold head at h ⊢
    have hshort : ¬(wire.take k).length < HEADER := by
      simp only [List.length_take]
      omega
    have hrecord : recordLength (wire.take k) = recordLength wire := by
      simp only [recordLength, HEADER] at hk ⊢
      rw [List.drop_take, List.take_take, Nat.min_eq_left (by omega)]
    have hwhole : ¬(wire.take k).length < HEADER + recordLength wire := by
      simp only [List.length_take]
      omega
    have hstate : ¬s.state = .closed := by
      intro hclosed
      simp [hclosed] at h
    generalize (if s.read.isSome then MAX_RECORD else MAX_PLAIN) = limit at h ⊢
    rw [hrecord]
    simp only [hstate, hshort, hwhole, or_self, if_false]
    split_ifs <;> nofun
  rw [← head_append hne (wire.drop k), List.take_append_drop, h]

/-- The first `n` bytes of `wire` are whole records, and after them the session is in `e'`. -/
def Upto (cfg : Config) (wire : List UInt8) (e : Exchange) (n : ℕ) (e' : Exchange) : Prop :=
  n ≤ wire.length ∧ after (receive cfg (wire.take n)) e = (.ok n, e')

theorem Upto.zero : Upto cfg wire e 0 e := ⟨Nat.zero_le _, loop_wait (by simp [head, HEADER])⟩

theorem Upto.cons {u : Unit} {n : ℕ} {e'' : Exchange} (h : head e.session wire = .whole len)
    (hr : after (guardedRecord cfg (wire.take HEADER) ((wire.drop HEADER).take len)) e = (.ok u, e'))
    (hrest : Upto cfg (wire.drop (HEADER + len)) e' n e'') : Upto cfg wire e (HEADER + len + n) e'' := by
  have hlen := (length_drop_of_whole h).1
  obtain ⟨hn, hrest⟩ := hrest
  rw [List.length_drop] at hn
  refine ⟨by omega, ?_⟩
  have hhead := head_take_of_whole h (Nat.le_add_right (HEADER + len) n)
  have hr' : after (guardedRecord cfg ((wire.take (HEADER + len + n)).take HEADER)
      (((wire.take (HEADER + len + n)).drop HEADER).take len)) e = (.ok u, e') := by
    rw [List.take_take, List.drop_take, List.take_take, Nat.min_eq_left (by omega),
      Nat.min_eq_left (by omega)]
    exact hr
  have hnext : after (receive cfg (wire.take (HEADER + len + n))) e =
      after (loop cfg ((wire.take (HEADER + len + n)).drop (HEADER + len)) (0 + HEADER + len)) e' :=
    loop_next hhead hr'
  have hdrop : (wire.take (HEADER + len + n)).drop (HEADER + len) =
      (wire.drop (HEADER + len)).take n := by
    rw [List.drop_take, Nat.add_sub_cancel_left]
  have hrest' : after (loop cfg ((wire.drop (HEADER + len)).take n) 0) e' = (.ok n, e'') := hrest
  calc after (receive cfg (wire.take (HEADER + len + n))) e
      = after (loop cfg ((wire.drop (HEADER + len)).take n) (HEADER + len + 0)) e' := by
        rw [← hdrop, ← Nat.zero_add HEADER]
        exact hnext
    _ = (.ok (HEADER + len + n), e'') := by
        rw [loop_add, after_bind_ok hrest']
        rfl

/-- The record at the start of `wire` fails. -/
def Fails (cfg : Config) (wire : List UInt8) (e : Exchange) (f : Fault) (e' : Exchange) : Prop :=
  (∃ a, head e.session wire = .refused a ∧
    after (abort cfg.crypto (.locally a) : Tls ℕ) e = (.error f, e')) ∨
  ∃ len, head e.session wire = .whole len ∧
    after (guardedRecord cfg (wire.take HEADER) ((wire.drop HEADER).take len)) e = (.error f, e')

/-- A call takes whole records until it waits for more or one fails. -/
theorem loop_ends (cfg : Config) (e : Exchange) (wire : List UInt8) (used : ℕ) :
    ∃ n e₁, Upto cfg wire e n e₁ ∧ (after (loop cfg wire used) e = (.ok (used + n), e₁) ∨
      ∃ f e', after (loop cfg wire used) e = (.error f, e') ∧ Fails cfg (wire.drop n) e₁ f e') := by
  induction hlen : wire.length using Nat.strong_induction_on generalizing wire e used with
  | _ k ih =>
    cases hh : head e.session wire with
    | wait => exact ⟨0, e, .zero, .inl (loop_wait hh)⟩
    | refused a =>
      obtain ⟨f, e', hf⟩ := after_abort cfg.crypto (.locally a) e ℕ
      exact ⟨0, e, .zero, .inr ⟨f, e', (loop_refused hh).trans hf, .inl ⟨a, hh, hf⟩⟩⟩
    | whole len =>
      have hdrop := (length_drop_of_whole hh).1
      cases hr : after (guardedRecord cfg (wire.take HEADER) ((wire.drop HEADER).take len)) e with
      | mk r e' =>
        cases r with
        | error f => exact ⟨0, e, .zero, .inr ⟨f, e', loop_failed hh hr, .inr ⟨len, hh, hr⟩⟩⟩
        | ok u =>
          obtain ⟨n, e₁, hupto, hend⟩ := ih (wire.drop (HEADER + len)).length
            (by simp only [List.length_drop, HEADER] at *; omega) e' (wire.drop (HEADER + len))
            (used + HEADER + len) rfl
          refine ⟨HEADER + len + n, e₁, hupto.cons hh hr, ?_⟩
          rw [List.drop_drop] at hend
          rw [loop_next hh hr, show used + (HEADER + len + n) = used + HEADER + len + n by omega]
          exact hend

/-- A call on `a` followed by `b` and a call on `a`, then one on what it left of `a` and `b`,
come to the same: the plaintext, the records put out, the session, and the bytes taken or the
error. -/
theorem receive_append (cfg : Config) (e : Exchange) (a b : List UInt8) :
    after (receive cfg (a ++ b)) e =
      after (receive cfg a >>= fun n => receive cfg (a.drop n ++ b) >>= fun m => pure (n + m)) e := by
  have happend : after (receive cfg (a ++ b)) e =
      after (loop cfg a 0 >>= fun n => loop cfg (a.drop n ++ b) (0 + n)) e := loop_append b
  rw [happend]
  change _ = after (loop cfg a 0 >>= fun n => loop cfg (a.drop n ++ b) 0 >>= fun m => pure (n + m)) e
  cases hl : after (loop cfg a 0) e with
  | mk r e' =>
    cases r with
    | error f => rw [after_bind_error hl, after_bind_error hl]
    | ok n => rw [after_bind_ok hl, after_bind_ok hl, Nat.zero_add, ← loop_add, Nat.add_zero]

end Chatlink.Net
