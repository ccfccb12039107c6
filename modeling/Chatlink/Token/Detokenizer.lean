import Chatlink.Lib.Characters
import Chatlink.Token.Tokenizer

/-!
# Tokens back into text, as they come

A character may be split across byte tokens. Its bytes wait until the last one is there; bytes that are no
character become U+FFFD, one each. However the bytes come, the whole text is theirs.
-/
namespace Chatlink.Token

open Utf8

/-- What a failed reading keeps of the bytes before it. -/
def okOrDefault (r : Except Utf8Error (List Char)) : List Char :=
  match r with
  | .ok s => s
  | .error _ => []

/-- How many bytes are given up: those that are no character, and at the end those of an unfinished one. -/
def givenUp (stop : Bool) (e : Utf8Error) (bad : List UInt8) : Option ℕ :=
  e.errorLen.or (if stop then some bad.length else none)

theorem givenUp_shorter {stop : Bool} {e : Utf8Error} {rest : List UInt8} {n : ℕ} (h : fromUtf8 rest = .error e)
    (hn : givenUp stop e (rest.drop e.validUpTo) = some n) :
    ((rest.drop e.validUpTo).drop n).length < rest.length := by
  obtain ⟨t, bad, rfl, hup, hne, hbad⟩ := fromUtf8_error h
  have hpos := List.length_pos_of_ne_nil hne
  rw [hup, List.drop_left] at hn ⊢
  rw [List.length_drop, List.length_append]
  obtain ⟨hlen, -⟩ | ⟨k, hlen, hk⟩ := hbad
  · rw [givenUp, hlen, Option.none_or] at hn
    split_ifs at hn
    cases hn
    omega
  · obtain ⟨b, w, r, -, hkw, -⟩ := head_bad hk
    rw [givenUp, hlen, Option.some_or] at hn
    cases hn
    omega

/-- The text of the bytes in `rest`, and those that wait. -/
def flushLoop (stop : Bool) (rest : List UInt8) : List Char × List UInt8 :=
  match _h : fromUtf8 rest with
  | .ok s => (s, [])
  | .error e =>
    let good := rest.take e.validUpTo
    let bad := rest.drop e.validUpTo
    match _hn : givenUp stop e bad with
    | none => (okOrDefault (fromUtf8 good), bad)
    | some n =>
      let r := flushLoop stop (bad.drop n)
      (okOrDefault (fromUtf8 good) ++ List.replicate n REPLACEMENT ++ r.1, r.2)
termination_by rest.length
decreasing_by exact givenUp_shorter ‹_› ‹_›

/-- Turns generated tokens back into text as they come. -/
structure Detokenizer where
  pending : List UInt8 := []
  deriving DecidableEq, Repr

namespace Detokenizer

def flush (d : Detokenizer) (out : List Char) (stop : Bool) : Detokenizer × List Char :=
  let (s, rest) := flushLoop stop d.pending
  (⟨d.pending.drop (d.pending.length - rest.length)⟩, out ++ s)

/-- Appends to `out` the text that token `id` completes. -/
def push (d : Detokenizer) (tok : Tokenizer) (id : UInt32) (out : List Char) : Detokenizer × List Char :=
  if tok.isSpecial id then (d, out)
  else flush ⟨d.pending ++ tok.tokenBytes id⟩ out false

/-- Appends what is left, an unfinished character as U+FFFD. -/
def finish (d : Detokenizer) (out : List Char) : Detokenizer × List Char := d.flush out true

/-- `push` for each token, from the start. -/
def pushes (tok : Tokenizer) (ids : List UInt32) : Detokenizer × List Char :=
  ids.foldl (fun (d, out) id => d.push tok id out) ({}, [])

end Detokenizer

/-! ## What waits -/

/-- Less than a character. -/
def Waiting (rest : List UInt8) : Prop := head rest = .cut

theorem Waiting.length_le {rest : List UInt8} (h : Waiting rest) : rest.length ≤ 3 := by
  obtain rfl | ⟨b, w, rfl, hlen, -⟩ := head_cut h
  · exact Nat.zero_le 3
  · exact hlen

section flushLoop

variable {stop : Bool} {t : List Char} {bad : List UInt8} {e : Utf8Error}

theorem flushLoop_bytes : flushLoop stop (bytes t) = (t, []) := by
  rw [flushLoop]
  split
  · next s h =>
    rw [fromUtf8_bytes] at h
    cases h
    rfl
  · next e h => rw [fromUtf8_bytes] at h; cases h

theorem flushLoop_keep (h : fromUtf8 (bytes t ++ bad) = .error e) (hup : e.validUpTo = (bytes t).length)
    (hkeep : givenUp stop e bad = none) : flushLoop stop (bytes t ++ bad) = (t, bad) := by
  rw [flushLoop]
  split
  · next s hs => rw [h] at hs; cases hs
  · next e' he =>
    rw [h] at he
    cases he
    dsimp only
    split
    · rw [hup, List.drop_left, List.take_left, fromUtf8_bytes, okOrDefault]
    · next n hn => rw [hup, List.drop_left, hkeep] at hn; cases hn

theorem flushLoop_give {n : ℕ} (h : fromUtf8 (bytes t ++ bad) = .error e) (hup : e.validUpTo = (bytes t).length)
    (hgive : givenUp stop e bad = some n) :
    flushLoop stop (bytes t ++ bad) =
      (t ++ (List.replicate n REPLACEMENT ++ (flushLoop stop (bad.drop n)).1), (flushLoop stop (bad.drop n)).2) := by
  rw [flushLoop]
  split
  · next s hs => rw [h] at hs; cases hs
  · next e' he =>
    rw [h] at he
    cases he
    dsimp only
    split
    · next hn => rw [hup, List.drop_left, hgive] at hn; cases hn
    · next k hn =>
      rw [hup, List.drop_left, hgive] at hn
      cases hn
      rw [hup, List.drop_left, List.take_left, fromUtf8_bytes, okOrDefault, List.append_assoc]

/-- What is given up is a byte at which no character stands, and bytes that only go on. -/
theorem givenUp_some {n : ℕ} (hne : bad ≠ [])
    (hbad : e.errorLen = none ∧ head bad = .cut ∨ ∃ n, e.errorLen = some n ∧ head bad = .bad n)
    (hgive : givenUp stop e bad = some n) :
    ∃ b w rest, bad = b :: (w ++ rest) ∧ n = w.length + 1 ∧ (∀ x ∈ w, Tail x) ∧
      ∀ more, (stop = true → more = []) → ∀ c r, head (bad ++ more) ≠ .char c r := by
  obtain ⟨hlen, hcut⟩ | ⟨k, hlen, hk⟩ := hbad
  · rw [givenUp, hlen, Option.none_or] at hgive
    split_ifs at hgive with hstop
    cases hgive
    obtain rfl | ⟨b, w, rfl, -, hw⟩ := head_cut hcut
    · exact absurd rfl hne
    · refine ⟨b, w, [], by rw [List.append_nil], rfl, hw, fun more hmore c r => ?_⟩
      rw [hmore hstop, List.append_nil, hcut]
      exact Head.noConfusion
  · rw [givenUp, hlen, Option.some_or] at hgive
    cases hgive
    obtain ⟨b, w, rest, hb, hn, hw, hmore⟩ := head_bad hk
    refine ⟨b, w, rest, hb, hn, hw, fun more _ c r => ?_⟩
    rw [hmore]
    exact Head.noConfusion

end flushLoop

/-- The text of the bytes is what was said, then that of the bytes that wait and of what follows; at the end nothing
follows, and nothing waits. -/
theorem flushLoop_spec (stop : Bool) (rest : List UInt8) :
    (∃ w, rest = w ++ (flushLoop stop rest).2) ∧ Waiting (flushLoop stop rest).2 ∧
      (stop = true → (flushLoop stop rest).2 = []) ∧
      ∀ more u, (stop = true → more = []) → Reads ((flushLoop stop rest).2 ++ more) u →
        Reads (rest ++ more) ((flushLoop stop rest).1 ++ u) := by
  cases h : fromUtf8 rest with
  | ok s =>
    rw [fromUtf8_ok h, flushLoop_bytes]
    exact ⟨⟨bytes s, (List.append_nil _).symm⟩, rfl, fun _ => rfl, fun more u _ hu => hu.append s⟩
  | error e =>
    obtain ⟨t, bad, hrest, hup, hne, hbad⟩ := fromUtf8_error h
    rw [hrest] at h
    rw [hrest]
    cases hgive : givenUp stop e bad with
    | none =>
      have hstop : stop = false ∧ head bad = .cut := by
        obtain ⟨hlen, hcut⟩ | ⟨k, hlen, hk⟩ := hbad
        · rw [givenUp, hlen, Option.none_or] at hgive
          split_ifs at hgive with hstop
          exact ⟨Bool.not_eq_true _ ▸ hstop, hcut⟩
        · rw [givenUp, hlen, Option.some_or] at hgive
          cases hgive
      rw [flushLoop_keep h hup hgive]
      refine ⟨⟨bytes t, rfl⟩, hstop.2, fun htrue => ?_, fun more u _ hu => ?_⟩
      · rw [hstop.1] at htrue
        cases htrue
      · rw [List.append_assoc]
        exact hu.append t
    | some n =>
      obtain ⟨b, w, r, rfl, rfl, hw, hhead⟩ := givenUp_some hne hbad hgive
      have hdrop : (b :: (w ++ r)).drop (w.length + 1) = r := by rw [List.drop_succ_cons, List.drop_left]
      rw [flushLoop_give h hup hgive, hdrop]
      obtain ⟨⟨w', hw'⟩, hwait, hnil, hreads⟩ := flushLoop_spec stop r
      refine ⟨⟨bytes t ++ b :: (w ++ w'), ?_⟩, hwait, hnil, fun more u hmore hu => ?_⟩
      · simp only [List.append_assoc, List.cons_append]
        rw [← hw']
      · have hno := hhead more hmore
        simp only [List.append_assoc, List.cons_append] at hno ⊢
        exact Reads.append t ((hreads more u hmore hu).broken hno hw)
termination_by rest.length
decreasing_by
  rw [hrest]
  simp only [List.length_append, List.length_cons]
  omega

namespace Detokenizer

/-- The bytes of the tokens that are not special. -/
def spoken (tok : Tokenizer) (ids : List UInt32) : List UInt8 :=
  (ids.filter fun id => !tok.isSpecial id).flatMap tok.tokenBytes

/-- The text of the tokens, to the end. -/
def whole (tok : Tokenizer) (ids : List UInt32) : List Char :=
  let (d, out) := pushes tok ids
  (d.finish out).2

theorem flush_fst (d : Detokenizer) (out : List Char) (stop : Bool) :
    (d.flush out stop).1 = ⟨(flushLoop stop d.pending).2⟩ := by
  obtain ⟨⟨w, hw⟩, -⟩ := flushLoop_spec stop d.pending
  rw [flush]
  dsimp only
  congr 1
  have hlen := congrArg List.length hw
  rw [List.length_append] at hlen
  rw [show d.pending.length - (flushLoop stop d.pending).2.length = w.length by omega]
  conv_lhs => rw [hw]
  exact List.drop_left

theorem flush_snd (d : Detokenizer) (out : List Char) (stop : Bool) :
    (d.flush out stop).2 = out ++ (flushLoop stop d.pending).1 := rfl

/-- What `out` and the waiting bytes stand for: the bytes so far, whatever follows. -/
structure Said (d : Detokenizer) (out : List Char) (sofar : List UInt8) : Prop where
  waiting : Waiting d.pending
  reads : ∀ more u, Reads (d.pending ++ more) u → Reads (sofar ++ more) (out ++ u)

theorem said_start : Said {} [] [] := ⟨rfl, fun _ _ h => h⟩

theorem Said.push {d : Detokenizer} {out : List Char} {sofar : List UInt8} (h : Said d out sofar) (tok : Tokenizer)
    (id : UInt32) : Said (d.push tok id out).1 (d.push tok id out).2 (sofar ++ spoken tok [id]) := by
  rw [Detokenizer.push, spoken]
  split_ifs with hspecial
  · simpa [hspecial] using h
  · obtain ⟨-, hwait, -, hreads⟩ := flushLoop_spec false (d.pending ++ tok.tokenBytes id)
    rw [flush_fst, flush_snd]
    refine ⟨hwait, fun more u hu => ?_⟩
    have hpending := hreads more u nofun hu
    rw [List.append_assoc] at hpending
    simpa [hspecial] using h.reads _ _ hpending

theorem spoken_append (tok : Tokenizer) (ids more : List UInt32) :
    spoken tok (ids ++ more) = spoken tok ids ++ spoken tok more := by
  rw [spoken, List.filter_append, List.flatMap_append]
  rfl

theorem pushes_concat (tok : Tokenizer) (ids : List UInt32) (id : UInt32) :
    pushes tok (ids ++ [id]) = (pushes tok ids).1.push tok id (pushes tok ids).2 := by
  rw [pushes, List.foldl_append]
  rfl

theorem said_pushes (tok : Tokenizer) (ids : List UInt32) :
    Said (pushes tok ids).1 (pushes tok ids).2 (spoken tok ids) := by
  induction ids using List.reverseRecOn with
  | nil => exact said_start
  | append_singleton ids id ih =>
    rw [pushes_concat, spoken_append]
    exact ih.push tok id

/-- Text only grows. -/
theorem push_grows (d : Detokenizer) (tok : Tokenizer) (id : UInt32) (out : List Char) :
    out <+: (d.push tok id out).2 := by
  rw [push]
  split_ifs with hspecial
  · exact List.prefix_rfl
  · exact List.prefix_append _ _

theorem pushes_grows (tok : Tokenizer) (ids more : List UInt32) : (pushes tok ids).2 <+: (pushes tok (ids ++ more)).2 := by
  induction more using List.reverseRecOn with
  | nil => rw [List.append_nil]
  | append_singleton more id ih =>
    rw [← List.append_assoc, pushes_concat]
    exact ih.trans (push_grows _ tok id _)

theorem whole_eq (tok : Tokenizer) (ids : List UInt32) :
    whole tok ids = (pushes tok ids).2 ++ (flushLoop true (pushes tok ids).1.pending).1 := rfl

theorem reads_whole (tok : Tokenizer) (ids : List UInt32) : Reads (spoken tok ids) (whole tok ids) := by
  obtain ⟨-, -, hnil, hreads⟩ := flushLoop_spec true (pushes tok ids).1.pending
  have hlast := hreads [] [] (fun _ => rfl) (by rw [hnil rfl]; exact Reads.nil)
  rw [List.append_nil] at hlast
  have hwhole := (said_pushes tok ids).reads [] _ (by rw [List.append_nil]; exact hlast)
  rwa [List.append_nil, List.append_nil] at hwhole

/-- However the bytes come, the text is theirs, with each byte that is no character replaced; what is said on the way
is its beginning, and at most three bytes wait. -/
theorem streams (tok : Tokenizer) (ids : List UInt32) :
    (∀ text, Reads (spoken tok ids) text ↔ text = whole tok ids) ∧
    (∀ tok' ids', spoken tok' ids' = spoken tok ids → whole tok' ids' = whole tok ids) ∧
    ∀ before after, ids = before ++ after →
      (pushes tok before).2 <+: whole tok ids ∧ (pushes tok before).1.pending.length ≤ 3 := by
  refine ⟨fun text => ⟨fun h => h.unique (reads_whole tok ids), fun h => h ▸ reads_whole tok ids⟩, fun tok' ids' h => ?_, ?_⟩
  · have h' := reads_whole tok' ids'
    rw [h] at h'
    exact h'.unique (reads_whole tok ids)
  · rintro before after rfl
    refine ⟨?_, (said_pushes tok before).waiting.length_le⟩
    rw [whole_eq]
    exact (pushes_grows tok before after).trans (List.prefix_append _ _)

end Detokenizer

end Chatlink.Token
