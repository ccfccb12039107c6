import Chatlink.Serve.Answers
import Chatlink.Serve.Fifo
import Chatlink.Serve.ReadBack

/-!
# Room for an answer

An append charges the skipped end of the ring as well as the frame. When the client has read
everything, a frame of at most half the ring has room wherever the head stands; a larger one
has none when the head stands in the middle. Errors repeat the name of the model that the
client sent, which may take almost the whole request area.
-/
namespace Chatlink.Serve

open FrameRing Codec Transition Writer

/-- A message that may answer a request of the request area. -/
def IsAnswer (m : Msg) : Prop :=
  ∃ area a, area.length = REQUEST_BYTES ∧ Answers area a ∧ m = a.bytes

/-- The daemon appends nothing but answers. -/
def Answering : Ring → Act → Prop := fun _ a => ∀ m, a = .append m → IsAnswer m

/-- Whenever the client has read everything, `append` finds room for `m` at once. -/
def RoomAtOnce (m : Msg) : Prop :=
  ∀ r, Reachable step Answering Ring.initial r → r.daemon = .idle → r.tail = r.head →
    r.HasRoom r.head (skipBefore r.head (need m.length)) (need m.length)

theorem need_le_half {n : ℕ} : need n ≤ RING_BYTES / 2 ↔ n ≤ RING_BYTES / 2 - 4 := by
  unfold need padded RING_BYTES
  omega

/-- With nothing unread, room is what is skipped and the frame in one turn. -/
theorem hasRoom_iff {r : Ring} (h : r.tail = r.head) (n : ℕ) :
    r.HasRoom r.head (skipBefore r.head n) n ↔ skipBefore r.head n + n ≤ RING_BYTES := by
  unfold Ring.HasRoom
  omega

theorem skip_le_of_half {at_ n : ℕ} (h : n ≤ RING_BYTES / 2) :
    skipBefore at_ n + n ≤ RING_BYTES := by
  unfold skipBefore
  split <;> omega

theorem skip_of_middle {at_ n : ℕ} (hat : at_ % RING_BYTES = RING_BYTES / 2)
    (h : RING_BYTES / 2 < n) : RING_BYTES < skipBefore at_ n + n := by
  have hring : RING_BYTES = 2 * (RING_BYTES / 2) := by decide
  unfold skipBefore
  rw [hat]
  split <;> omega

/-! ### A whole append -/

/-- A message for which there is room, and nothing to skip, is published and woken for. -/
theorem appends {r : Ring} {msg : Msg} (hd : r.daemon = .idle)
    (hskip : skipBefore r.head (need msg.length) = 0)
    (hroom : r.HasRoom r.head 0 (need msg.length)) :
    ∃ acts r', (∀ a ∈ acts, ∀ m, a = .append m → m = msg) ∧ run step r acts = some r' ∧
      r'.daemon = .idle ∧ r'.head = r.head + need msg.length := by
  obtain ⟨r₁, hcopies, hd₁, hhead, -⟩ := @copies_frame { r with daemon := .writes msg r.head 0 } msg
    r.head 0 rfl (Nat.zero_le _)
  have hbegin : run step r [.append msg, .room, .mark] =
      some { r with daemon := .writes msg r.head 0 } := by
    have hroom' : r.head + need msg.length ≤ RING_BYTES + r.tail := by
      unfold Ring.HasRoom at hroom
      omega
    simp [run, replay, step, stepDaemon, stepClient, hd, hskip, Ring.HasRoom, hroom']
  have hend : ∃ r', run step r₁ [.store, .bump, .wake] = some r' ∧ r'.daemon = .idle ∧
      r'.head = r.head + need msg.length := by
    rw [length_frame] at hd₁
    simp [run, replay, step, stepDaemon, stepClient, hd₁]
  obtain ⟨r', hpublish, hidle, hhead'⟩ := hend
  refine ⟨[.append msg, .room, .mark] ++ (List.replicate ((frame msg).length - 0) .copy ++
    [.store, .bump, .wake]), r', ?_, ?_, hidle, hhead'⟩
  · intro a ha m hm
    subst hm
    simp at ha
    exact ha
  · exact run_append_eq_some.mpr ⟨_, hbegin, run_append_eq_some.mpr ⟨_, hcopies, hpublish⟩⟩

/-! ### An answer of half the ring -/

theorem utf8_append (s t : String) : utf8 (s ++ t) = utf8 s ++ utf8 t := by
  simp [utf8]

/-- A name of `n` letters. -/
def letters : ℕ → String
  | 0 => ""
  | n + 1 => letters n ++ "a"

theorem length_utf8_letters (n : ℕ) : (utf8 (letters n)).length = n := by
  have ha : (utf8 "a").length = 1 := by decide
  induction n with
  | zero => decide
  | succ n ih => rw [letters, utf8_append, List.length_append, ih, ha]

/-- A model that is not there, under a name of `n` letters. -/
def loadLetters (n : ℕ) : Request := .load 7 (letters n) (-1) 0 false

/-- No model is anywhere. -/
def nothingThere : World where
  present := fun _ => false
  loaded := fun _ => false
  loadError := fun _ => none
  english := fun _ => false
  embed := .ok (0, 0)
  decide := .ok fun _ => 0
  decodes := fun _ _ => false
  chat := .ok ()
  models := []
  data := 0

def noModelAnswer (n : ℕ) : Answer :=
  .error 7 { code := .noModel, text := "no model " ++ letters n }

theorem length_noModelAnswer (n : ℕ) : (noModelAnswer n).bytes.length = 31 + n := by
  have hname : (utf8 "no model ").length = 9 := by decide
  simp [noModelAnswer, Answer.bytes, Writer.new, Writer.text, Fields.u64, Fields.u16, utf8_append,
    length_utf8_letters, hname]
  omega

theorem length_loadLetters (n : ℕ) : (loadLetters n).bytes.length = 33 + n := by
  rw [Request.bytes_eq]
  simp [loadLetters, Request.rest, Request.fields, Request.template, Writer.new, length_layOut,
    loadFields, data, length_utf8_letters]
  omega

/-- The request area with that request in it. -/
def loadArea (n : ℕ) : List UInt8 :=
  (loadLetters n).bytes ++ List.replicate (REQUEST_BYTES - (33 + n)) 0

theorem answer_loadArea {n : ℕ} (h : 33 + n ≤ REQUEST_BYTES) :
    nothingThere.answer (loadArea n) = .last (noModelAnswer n) := by
  have hfits : (loadLetters n).bytes.length ≤ REQUEST_BYTES := by rwa [length_loadLetters]
  have hread := ((loadLetters n).read_eq_ask_iff hfits
    (List.replicate (REQUEST_BYTES - (33 + n)) 0)).mpr trivial
  rw [World.answer, loadArea, hread]
  rfl

theorem answers_noModelAnswer {n : ℕ} (h : 33 + n ≤ REQUEST_BYTES) :
    Answers (loadArea n) (noModelAnswer n) :=
  .last (answer_loadArea h)

theorem isAnswer_noModelAnswer {n : ℕ} (h : 33 + n ≤ REQUEST_BYTES) :
    IsAnswer (noModelAnswer n).bytes := by
  refine ⟨loadArea n, noModelAnswer n, ?_, answers_noModelAnswer h, rfl⟩
  rw [loadArea, List.length_append, length_loadLetters, List.length_replicate]
  omega

/-- The client has read everything and the head stands in the middle of the ring: one
answer about a model of 524253 letters. -/
theorem reaches_middle : ∃ r, Reachable step Answering Ring.initial r ∧ r.daemon = .idle ∧
    r.tail = r.head ∧ r.head % RING_BYTES = RING_BYTES / 2 := by
  obtain ⟨msg, hmsg⟩ : ∃ msg, msg = (noModelAnswer 524253).bytes := ⟨_, rfl⟩
  have hlength : msg.length = 524284 := by rw [hmsg, length_noModelAnswer]
  have hanswer : IsAnswer msg := hmsg ▸ isAnswer_noModelAnswer (by decide)
  have hneed : need msg.length = RING_BYTES / 2 := by rw [hlength]; decide
  have hskip : skipBefore Ring.initial.head (need msg.length) = 0 := by rw [hneed]; decide
  have hroom : Ring.initial.HasRoom Ring.initial.head 0 (need msg.length) := by
    rw [hneed]; decide
  obtain ⟨acts, r, hacts, hrun, hidle, hhead⟩ := appends rfl hskip hroom
  have hallowed : ∀ a ∈ acts, ∀ u, Answering u a := fun a ha u m hm => hacts a ha m hm ▸ hanswer
  have hr : Reachable step Answering Ring.initial r := Reachable.refl.run hallowed hrun
  have hs : Sound r := sound_of_reachable (hr.mono fun _ _ _ => trivial)
  obtain ⟨acts', r', hclient, hrun', -, hdaemon, hhead', -, htail⟩ := client_reaches_head hs
  have hallowed' : ∀ a ∈ acts', ∀ u, Answering u a := by
    rintro a ha u m rfl
    exact absurd (hclient _ ha) (by simp [Act.OfClient])
  refine ⟨r', hr.run hallowed' hrun', hdaemon.trans hidle, htail, ?_⟩
  rw [hhead', hhead, hneed]
  decide

/-! ### How long answers are -/

/-- The texts and names an answer holds leave it within half of the ring. -/
def Answer.Short : Answer → Prop
  | .text _ t => (utf8 t).length ≤ RING_BYTES / 2 - 24
  | .error _ f => (utf8 f.text).length ≤ RING_BYTES / 2 - 26
  | .models _ ms => (ms.map fun m => 21 + (utf8 m.name).length).sum ≤ RING_BYTES / 2 - 24
  | .done .. | .embedded .. | .decided .. => True

theorem length_new (template : UInt16) (block : List UInt8) :
    (new template block).length = 8 + block.length := by
  simp [new]
  omega

theorem group_counted {g : ℕ × ℕ} {c c' : Cursor} (h : Reader.group c = some (g, c')) :
    g.2 < 65536 := by
  obtain ⟨head, c₁, -, h⟩ := bind_eq_some h
  obtain ⟨rfl, -⟩ := pure_eq_some h
  have hlt := ofLe_lt ((head.drop 2).take 2)
  have hlength : ((head.drop 2).take 2).length ≤ 2 := List.length_take_le 2 _
  exact hlt.trans_le (Nat.pow_le_pow_right (by decide) hlength)

/-- A Decide that was read has no more questions than its count can say. -/
theorem questions_counted {area : List UInt8} {d : Decide}
    (h : (read area).2 = some (.decide d)) : d.questions.length < 65536 := by
  unfold read at h
  split at h
  · cases h
  · next m r hopen =>
    obtain ⟨⟨ask, c'⟩, hread, rfl⟩ := Option.map_eq_some_iff.mp h
    generalize m.1 = template at hread
    unfold readAsk at hread
    split at hread
    · obtain ⟨c, c₁, -, hread⟩ := bind_eq_some hread
      cases (pure_eq_some hread).1
    · obtain ⟨e, c₁, -, hread⟩ := bind_eq_some hread
      cases (pure_eq_some hread).1
    · obtain ⟨d', c₁, hd, hread⟩ := bind_eq_some hread
      obtain rfl : d' = d := Ask.decide.inj (pure_eq_some hread).1
      obtain ⟨g, c₂, hg, hd⟩ := bind_eq_some hd
      obtain ⟨questions, c₃, hquestions, hd⟩ := bind_eq_some hd
      obtain ⟨model, c₄, -, hd⟩ := bind_eq_some hd
      obtain ⟨state, c₅, -, hd⟩ := bind_eq_some hd
      obtain ⟨conversation, c₆, -, hd⟩ := bind_eq_some hd
      obtain ⟨out, c₇, -, hd⟩ := bind_eq_some hd
      obtain ⟨rfl, -⟩ := pure_eq_some hd
      exact (length_of_times hquestions).trans_lt (group_counted hg)
    · obtain ⟨model, c₁, -, hread⟩ := bind_eq_some hread
      obtain ⟨keepMs, c₂, -, hread⟩ := bind_eq_some hread
      obtain ⟨context, c₃, -, hread⟩ := bind_eq_some hread
      obtain ⟨pin, c₄, -, hread⟩ := bind_eq_some hread
      cases (pure_eq_some hread).1
    · obtain ⟨model, c₁, -, hread⟩ := bind_eq_some hread
      cases (pure_eq_some hread).1
    · cases (pure_eq_some hread).1
    · cases (pure_eq_some hread).1
    · cases hread

theorem decided_counted {area : List UInt8} {id : UInt64} {counts : List UInt32}
    (h : Answers area (.decided id counts)) : counts.length < 65536 := by
  cases h with
  | @last w _ h =>
    unfold World.answer at h
    split at h
    · cases h
    · next ask hask =>
      obtain ⟨f, -, ha⟩ | ha | ha | ⟨count, dims, ha⟩ | ⟨d, count, rfl, ha⟩ := run_eq_last h
      · cases ha
      · cases ha
      · cases ha
      · cases ha
      · have hcounts : counts = (d.questions.map count).map UInt32.ofNat := (Answer.decided.inj ha).2
        rw [hcounts, List.length_map, List.length_map]
        exact questions_counted hask

/-- An entry of a Models message. -/
def listedBytes (m : Listed) : List UInt8 :=
  (((Fields.u64 [] m.vram).u64 m.left).u8 m.tier.code) ++ data m.name

theorem listing_eq (w : Writer) (m : Listed) : Answer.listing w m = w ++ listedBytes m := by
  rw [Answer.listing, text_eq, Writer.bytes, listedBytes, List.append_assoc]

theorem length_listedBytes (m : Listed) : (listedBytes m).length = 21 + (utf8 m.name).length := by
  simp only [listedBytes, data, Fields.u64, Fields.u8, List.length_append, length_le,
    List.length_nil]
  omega

theorem short_iff {area : List UInt8} {a : Answer} (h : Answers area a) :
    a.bytes.length ≤ RING_BYTES / 2 - 4 ↔ a.Short := by
  have hring : RING_BYTES / 2 = 2 ^ 19 := by decide
  cases a with
  | text i t =>
    simp only [Answer.bytes, Answer.Short, text_eq, data, List.length_append, length_new,
      Fields.u64, length_le, List.length_nil, hring]
    omega
  | done i prefill decode prompt tokens =>
    refine iff_of_true ?_ trivial
    simp only [Answer.bytes, List.length_append, length_new, Fields.u64, Fields.u32, length_le,
      List.length_nil, hring]
    omega
  | error i f =>
    simp only [Answer.bytes, Answer.Short, text_eq, data, List.length_append, length_new,
      Fields.u64, Fields.u16, length_le, List.length_nil, hring]
    omega
  | embedded i count dims =>
    refine iff_of_true ?_ trivial
    simp only [Answer.bytes, List.length_append, length_new, Fields.u64, Fields.u32, length_le,
      List.length_nil, hring]
    omega
  | decided i counts =>
    have hcounts := decided_counted h
    have hwrites := foldl_writes (f := fun (w : Writer) (n : UInt32) => w.bytes (Fields.u32 [] n))
      (g := fun n => Fields.u32 [] n) (fun _ _ => rfl) counts
    refine iff_of_true ?_ trivial
    rw [Answer.bytes, hwrites]
    simp only [Writer.group, List.length_append, List.length_flatMap, length_new, Fields.u64,
      Fields.u32, length_le, List.length_nil, List.map_const', List.sum_replicate, smul_eq_mul,
      hring]
    omega
  | models i ms =>
    have hwrites := foldl_writes (f := Answer.listing) (g := listedBytes) listing_eq ms
    have hsum : (ms.flatMap listedBytes).length =
        (ms.map fun m => 21 + (utf8 m.name).length).sum := by
      rw [List.length_flatMap]
      exact congrArg List.sum (List.map_congr_left fun m _ => length_listedBytes m)
    simp only [Answer.bytes, Answer.Short, hwrites, hsum, Writer.group, List.length_append,
      length_new, Fields.u64, length_le, List.length_nil, hring]
    omega

/-- A frame of more than half the ring finds no room at the middle. -/
theorem no_room_of_large {m : Msg} (h : RING_BYTES / 2 < need m.length) : ¬RoomAtOnce m := by
  intro hroom
  obtain ⟨r, hr, hidle, htail, hmiddle⟩ := reaches_middle
  have hfits := (hasRoom_iff htail _).mp (hroom r hr hidle htail)
  have hmore := skip_of_middle hmiddle h
  omega

/-- An answer has room whenever the client has read everything exactly when the texts and
names in it leave it within half of the ring. -/
theorem roomAtOnce_iff {area : List UInt8} {a : Answer} (h : Answers area a) :
    RoomAtOnce a.bytes ↔ a.Short := by
  rw [← short_iff h, ← need_le_half]
  constructor
  · intro hroom
    by_contra hlarge
    exact no_room_of_large (not_le.mp hlarge) hroom
  · intro hhalf r _ _ htail
    exact (hasRoom_iff htail _).mpr (skip_le_of_half hhalf)

theorem roomAtOnce_short_name : RoomAtOnce (noModelAnswer 5).bytes := by
  refine (roomAtOnce_iff (answers_noModelAnswer (by decide))).mpr ?_
  change (utf8 ("no model " ++ letters 5)).length ≤ RING_BYTES / 2 - 26
  decide

/-- The answer to a request for a model of 600000 letters may find no room. -/
theorem long_name_no_room : IsAnswer (noModelAnswer 600000).bytes ∧
    ¬RoomAtOnce (noModelAnswer 600000).bytes := by
  refine ⟨isAnswer_noModelAnswer (by decide), no_room_of_large ?_⟩
  rw [length_noModelAnswer]
  decide

end Chatlink.Serve
