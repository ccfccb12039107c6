import Chatlink.Serve.Requests

/-!
# Requests read back as written

Every request the command line builds, with the `Ask` it stands for. Reading it out of the
request area gives its number and that `Ask`, whatever an earlier, longer request left
behind it, exactly when no group has 2^16 entries or more and no number of dimensions
needs more than 32 bits: the writer cuts both without a word.
-/
namespace Chatlink.Serve

open Codec Writer

/-- What the command line asks of the daemon; `room` is the size of the data area. -/
inductive Request where
  | chat (id : UInt64) (t : Talk)
  | embed (id room : UInt64) (model : String) (texts : List String) (dims : Option UInt64)
  | decide (id room : UInt64) (model state : String) (conversation : Bool) (asked : List Asked)
  | load (id : UInt64) (model : String) (keep : Int64) (context : UInt32) (pin : Bool)
  | unload (id : UInt64) (model : String)
  | list (id : UInt64)
  | shutdown (id : UInt64)
  deriving DecidableEq, Repr

namespace Request

def id : Request → UInt64
  | chat i _ | embed i _ _ _ _ | decide i _ _ _ _ _ | load i _ _ _ _ | unload i _ | list i
  | shutdown i => i

def bytes : Request → Writer
  | chat i t => t.write i
  | embed i room model texts dims => Commands.embed i room model texts dims
  | decide i room model state conversation asked =>
    Commands.decide i room model state conversation asked
  | load i model keep context pin => Commands.load i model keep context pin
  | unload i model => Commands.unload i model
  | list i => Commands.ps i
  | shutdown i => Commands.down i

/-- The request's own fields, as the daemon should find them. -/
def ask : Request → Ask
  | chat _ t => .chat
    { model := t.model, messages := t.messages, sampling := t.sampling, think := t.think
      maxTokens := if t.maxTokens = 0 then USIZE_MAX else t.maxTokens.toNat
      keep := keepAlive t.keep }
  | embed _ room model texts dims => .embed
    { model, texts, dims := (dims.getD 0).toNat, out := { offset := 0, length := room } }
  | decide _ room model state conversation asked => .decide
    { model, state, conversation, questions := asked, out := { offset := 0, length := room } }
  | load _ model keep context pin => .load model (keepAlive keep) context.toNat pin
  | unload _ model => .unload model
  | list _ => .list
  | shutdown _ => .shutdown

/-- No count is cut: at most 65535 entries in a group, dimensions of 32 bits. -/
def Counted : Request → Prop
  | chat _ t => t.messages.length < 65536 ∧ ∀ m ∈ t.messages, m.attached.length < 65536
  | embed _ _ _ texts dims => texts.length < 65536 ∧ (dims.getD 0).toNat < 2 ^ 32
  | decide _ _ _ _ _ asked => asked.length < 65536 ∧ ∀ q ∈ asked, q.options.length < 65536
  | _ => True

end Request

/-! ### The parts of a message -/

/-- A text as it stands in a message. -/
def data (t : String) : List UInt8 := le 4 (utf8 t).length ++ utf8 t

theorem text_eq (w : Writer) (t : String) : w.text t = w ++ data t := rfl

theorem length_le_data (t : String) : (utf8 t).length ≤ (data t).length := by
  simp [data]

/-- Parts written one after another. -/
theorem foldl_writes {ι : Type} {f : Writer → ι → Writer} {g : ι → List UInt8}
    (h : ∀ w i, f w i = w ++ g i) (is : List ι) (w : Writer) :
    is.foldl f w = w ++ is.flatMap g := by
  induction is generalizing w with
  | nil => simp
  | cons i is ih => simp [h, ih, List.append_assoc]

theorem length_le_flatMap {ι : Type} {enc : ι → List UInt8} {is : List ι} {i : ι} (h : i ∈ is) :
    (enc i).length ≤ (is.flatMap enc).length := by
  rw [List.flatMap_def]
  exact (List.sublist_flatten_of_mem (List.mem_map_of_mem h)).length_le

theorem reads_data {t : String} (h : (data t).length < 2 ^ 32) : Reads Reader.text (data t) t :=
  reads_text ((length_le_data t).trans_lt h)

/-! ### Entries of the groups -/

def attachFields (a : UInt8 × Blob) : List (ℕ × ℕ) :=
  [(8, a.2.offset.toNat), (8, a.2.length.toNat), (1, a.1.toNat)]

theorem attach_eq (w : Writer) (a : UInt8 × Blob) : attach w a = w ++ layOut (attachFields a) := by
  simp [attach, Writer.bytes, Fields.u64, Fields.u8, attachFields, layOut, List.append_assoc]

theorem blob_layOut {fs : List (ℕ × ℕ)} {k : ℕ} {b : Blob} (h : fs[k]? = some (8, b.offset.toNat))
    (h' : fs[k + 1]? = some (8, b.length.toNat)) :
    Block.blob (layOut fs) (offset fs k) = some b := by
  have hnext : offset fs (k + 1) = offset fs k + 8 := by
    simp [offset, List.take_add_one, h]
  rw [Block.blob, u64_layOut h, ← hnext, u64_layOut h']
  rfl

theorem reads_attached (a : UInt8 × Blob) :
    Reads (readAttached 17) (layOut (attachFields a)) a := by
  have hlength : (layOut (attachFields a)).length = 17 := by simp [length_layOut, attachFields]
  refine reads_bind_last (reads_take_of_length hlength) ?_
  refine reads_option (@u8_layOut (attachFields a) 2 _ rfl) ?_
  refine reads_option (@blob_layOut (attachFields a) 0 _ rfl rfl) ?_
  exact reads_pure a

def saidBytes (m : Said) : List UInt8 :=
  [m.role.code] ++ ((le 2 17 ++ le 2 m.attached.length) ++
    (m.attached.flatMap (fun a => layOut (attachFields a)) ++ data m.text))

theorem saying_eq (w : Writer) (m : Said) : saying w m = w ++ saidBytes m := by
  rw [saying, foldl_writes attach_eq, text_eq, Writer.group, Writer.bytes]
  simp only [saidBytes, List.append_assoc]

/-- The entries of a group, whose count fits its 16 bits. -/
theorem reads_counted {α : Type} {p : Reading α} {enc : α → List UInt8} {xs : List α}
    (hn : xs.length < 65536) (h : ∀ x ∈ xs, Reads p (enc x) x) :
    Reads (times p (xs.length % 65536)) (xs.flatMap enc) xs := by
  rw [Nat.mod_eq_of_lt hn]
  exact reads_times xs h

/-- A group whose count was cut has fewer entries than were written. -/
theorem counted_of_times {α : Type} {p : Reading α} {xs : List α} {c c' : Cursor}
    (h : times p (xs.length % 65536) c = some (xs, c')) : xs.length < 65536 := by
  have hlength := length_of_times h
  omega

theorem reads_said {m : Said} (ha : m.attached.length < 65536)
    (ht : (saidBytes m).length < 2 ^ 32) : Reads (readSaid 1) (saidBytes m) m := by
  have hdata : (data m.text).length < 2 ^ 32 := by
    simp only [saidBytes, List.length_append] at ht
    omega
  refine reads_bind (reads_take_of_length rfl) ?_
  refine reads_option (v := m.role.code) (by cases m.role <;> rfl) ?_
  refine reads_option (v := m.role) (by cases m.role <;> rfl) ?_
  refine reads_bind (reads_group 17 m.attached.length) ?_
  refine reads_bind (reads_counted ha fun a _ => reads_attached a) ?_
  exact reads_bind_pure (reads_data hdata) fun text => Said.mk m.role text m.attached

theorem counted_of_readSaid {m : Said} {before after : List UInt8} {c' : Cursor}
    (h : readSaid 1 (at_ before (saidBytes m) after) = some (m, c')) :
    m.attached.length < 65536 := by
  rw [saidBytes, at_split] at h
  obtain ⟨e, c₁, he, h⟩ := bind_eq_some h
  obtain ⟨-, rfl⟩ := (reads_take_of_length rfl).inv he
  obtain ⟨code, c₂, hcode, h⟩ := bind_eq_some h
  obtain ⟨-, rfl⟩ := ofOption_eq_some hcode
  obtain ⟨role, c₃, hrole, h⟩ := bind_eq_some h
  obtain ⟨-, rfl⟩ := ofOption_eq_some hrole
  rw [at_append, at_split] at h
  obtain ⟨g, c₄, hg, h⟩ := bind_eq_some h
  obtain ⟨rfl, rfl⟩ := (reads_group 17 m.attached.length).inv hg
  obtain ⟨attached, c₅, hattached, h⟩ := bind_eq_some h
  obtain ⟨text, c₆, -, h⟩ := bind_eq_some h
  obtain ⟨rfl, -⟩ := pure_eq_some h
  exact counted_of_times hattached

def optionBytes (o : String × String) : List UInt8 := data o.1 ++ data o.2

theorem reads_option_entry {o : String × String} (h : (optionBytes o).length < 2 ^ 32) :
    Reads (readOption 0) (optionBytes o) o := by
  have hl : (data o.1).length < 2 ^ 32 ∧ (data o.2).length < 2 ^ 32 := by
    simp only [optionBytes, List.length_append] at h
    omega
  refine reads_bind_nil (reads_take_of_length rfl) ?_
  refine reads_bind (reads_data hl.1) ?_
  exact reads_bind_pure (reads_data hl.2) fun about => (o.1, about)

def askedBytes (q : Asked) : List UInt8 :=
  [q.kind.code] ++ ((le 2 0 ++ le 2 q.options.length) ++
    (q.options.flatMap optionBytes ++ data q.instructions))

theorem choosing_eq (w : Writer) (o : String × String) : choosing w o = w ++ optionBytes o := by
  rw [choosing, text_eq, text_eq, optionBytes, List.append_assoc]

theorem asking_eq (w : Writer) (asked : List Asked) :
    asking w asked = w ++ ((le 2 1 ++ le 2 asked.length) ++ asked.flatMap askedBytes) := by
  rw [asking, foldl_writes (g := askedBytes), Writer.group, List.append_assoc]
  intro w a
  rw [foldl_writes choosing_eq, text_eq, Writer.group, Writer.bytes]
  simp only [askedBytes, List.append_assoc]

theorem reads_asked {q : Asked} (ho : q.options.length < 65536)
    (hb : (askedBytes q).length < 2 ^ 32) : Reads (readAsked 1) (askedBytes q) q := by
  have hl : (q.options.flatMap optionBytes).length < 2 ^ 32 ∧
      (data q.instructions).length < 2 ^ 32 := by
    simp only [askedBytes, List.length_append] at hb
    omega
  have hoption (o : String × String) (hm : o ∈ q.options) : Reads (readOption 0) (optionBytes o) o :=
    reads_option_entry ((length_le_flatMap hm).trans_lt hl.1)
  refine reads_bind (reads_take_of_length rfl) ?_
  refine reads_option (v := q.kind.code) (by cases q.kind <;> rfl) ?_
  refine reads_option (v := q.kind) (by cases q.kind <;> rfl) ?_
  refine reads_bind (reads_group 0 q.options.length) ?_
  refine reads_bind (reads_counted ho hoption) ?_
  exact reads_bind_pure (reads_data hl.2) fun text => Asked.mk q.kind text q.options

theorem counted_of_readAsked {q : Asked} {before after : List UInt8} {c' : Cursor}
    (h : readAsked 1 (at_ before (askedBytes q) after) = some (q, c')) :
    q.options.length < 65536 := by
  rw [askedBytes, at_split] at h
  obtain ⟨e, c₁, he, h⟩ := bind_eq_some h
  obtain ⟨-, rfl⟩ := (reads_take_of_length rfl).inv he
  obtain ⟨code, c₂, hcode, h⟩ := bind_eq_some h
  obtain ⟨-, rfl⟩ := ofOption_eq_some hcode
  obtain ⟨kind, c₃, hkind, h⟩ := bind_eq_some h
  obtain ⟨-, rfl⟩ := ofOption_eq_some hkind
  rw [at_append, at_split] at h
  obtain ⟨g, c₄, hg, h⟩ := bind_eq_some h
  obtain ⟨rfl, rfl⟩ := (reads_group 0 q.options.length).inv hg
  obtain ⟨options, c₅, hoptions, h⟩ := bind_eq_some h
  obtain ⟨text, c₆, -, h⟩ := bind_eq_some h
  obtain ⟨rfl, -⟩ := pure_eq_some h
  exact counted_of_times hoptions

/-! ### Whole requests -/

def talkFields (id : UInt64) (t : Talk) : List (ℕ × ℕ) :=
  [(8, id.toNat), (8, t.sampling.seed.toNat), (8, t.keep.toUInt64.toNat), (4, t.maxTokens.toNat),
    (4, t.sampling.topK.toNat), (4, t.sampling.temperature.bits.toNat),
    (4, t.sampling.topP.bits.toNat), (4, t.sampling.minP.bits.toNat),
    (4, t.sampling.penalty.bits.toNat), (1, (boolByte t.think).toNat)]

theorem talk_block (id : UInt64) (t : Talk) :
    Fields.u64 [] id ++ t.fields = layOut (talkFields id t) := by
  simp [Talk.fields, Fields.u64, Fields.u32, Fields.u8, talkFields, layOut, List.append_assoc]

def talkRest (t : Talk) : List UInt8 :=
  (le 2 1 ++ le 2 t.messages.length) ++ (t.messages.flatMap saidBytes ++ data t.model)

theorem talk_eq (id : UInt64) (t : Talk) : t.write id = request 1 id t.fields ++ talkRest t := by
  rw [Talk.write, foldl_writes saying_eq, text_eq, Writer.group]
  simp only [talkRest, List.append_assoc]

theorem keep_toUInt64 (k : Int64) : keep k.toUInt64 = keepAlive k := rfl

theorem boolByte_ne_zero (b : Bool) : Decidable.decide (boolByte b ≠ 0) = b := by
  cases b <;> rfl

theorem readSampling_talk (id : UInt64) (t : Talk) :
    readSampling (layOut (talkFields id t)) = some t.sampling := by
  have hseed : Block.u64 (layOut (talkFields id t)) 8 = some t.sampling.seed :=
    u64_layOut (k := 1) rfl
  have hword (k : ℕ) (v : UInt32) (h : (talkFields id t)[k]? = some (4, v.toNat)) :
      Block.u32 (layOut (talkFields id t)) (offset (talkFields id t) k) = some v := u32_layOut h
  have htopK := hword 4 t.sampling.topK rfl
  have htemperature := hword 5 t.sampling.temperature.bits rfl
  have htopP := hword 6 t.sampling.topP.bits rfl
  have hminP := hword 7 t.sampling.minP.bits rfl
  have hpenalty := hword 8 t.sampling.penalty.bits rfl
  simp only [offset, talkFields, List.take, List.map, List.sum_cons, List.sum_nil, Nat.reduceAdd]
    at htopK htemperature htopP hminP hpenalty hseed
  simp [readSampling, Block.f32, talkFields, hseed, htopK, htemperature, htopP, hminP, hpenalty]

theorem reads_chat {id : UInt64} {t : Talk} (hn : t.messages.length < 65536)
    (ha : ∀ m ∈ t.messages, m.attached.length < 65536) (hb : (talkRest t).length < 2 ^ 32) :
    Reads (readAsk 1 (layOut (talkFields id t))) (talkRest t) (Request.chat id t).ask := by
  have hl : (t.messages.flatMap saidBytes).length < 2 ^ 32 ∧ (data t.model).length < 2 ^ 32 := by
    simp only [talkRest, List.length_append] at hb
    omega
  have hsaid (m : Said) (hm : m ∈ t.messages) : Reads (readSaid 1) (saidBytes m) m :=
    reads_said (ha m hm) ((length_le_flatMap hm).trans_lt hl.1)
  refine reads_bind_pure (v := ?_) ?_ Ask.chat
  refine reads_bind (reads_group 1 t.messages.length) ?_
  refine reads_bind (reads_counted hn hsaid) ?_
  refine reads_option (@u32_layOut (talkFields id t) 3 _ rfl) ?_
  refine reads_bind_last (reads_data hl.2) ?_
  refine reads_option (readSampling_talk id t) ?_
  refine reads_option (@u8_layOut (talkFields id t) 9 _ rfl) ?_
  refine reads_option (@u64_layOut (talkFields id t) 2 _ rfl) ?_
  rw [keep_toUInt64, boolByte_ne_zero]
  exact reads_pure _

/-- The entries of a group that reads back are themselves as they must be. -/
theorem counted_of_group {α : Type} {p : Reading α} {enc : α → List UInt8} {ok : α → Prop}
    {xs : List α} {before rest after : List UInt8} {c' : Cursor}
    (hb : (xs.flatMap enc).length < 2 ^ 32)
    (hread : ∀ x, ok x → (enc x).length < 2 ^ 32 → Reads p (enc x) x)
    (hok : ∀ x before after c', p (at_ before (enc x) after) = some (x, c') → ok x)
    (h : times p (xs.length % 65536) (at_ before (xs.flatMap enc ++ rest) after) =
      some (xs, c')) : xs.length < 65536 ∧ ∀ x ∈ xs, ok x := by
  have hn : xs.length < 65536 := counted_of_times h
  rw [Nat.mod_eq_of_lt hn, at_split] at h
  have hentry (x : α) (hx : x ∈ xs) (hokx : ok x) : Reads p (enc x) x :=
    hread x hokx ((length_le_flatMap hx).trans_lt hb)
  exact ⟨hn, forall_of_times xs hentry (fun x _ => hok x) h⟩

theorem counted_of_chat {id : UInt64} {t : Talk} {before after : List UInt8} {c' : Cursor}
    (hb : (talkRest t).length < 2 ^ 32)
    (h : readAsk 1 (layOut (talkFields id t)) (at_ before (talkRest t) after) =
      some ((Request.chat id t).ask, c')) : (Request.chat id t).Counted := by
  obtain ⟨c, c₁, hc, h⟩ := bind_eq_some h
  obtain ⟨hask, -⟩ := pure_eq_some h
  rw [talkRest, at_split] at hc
  obtain ⟨g, c₂, hg, hc⟩ := bind_eq_some hc
  obtain ⟨rfl, rfl⟩ := (reads_group 1 t.messages.length).inv hg
  obtain ⟨messages, c₃, hmessages, hc⟩ := bind_eq_some hc
  obtain ⟨tokens, c₄, -, hc⟩ := bind_eq_some hc
  obtain ⟨model, c₅, -, hc⟩ := bind_eq_some hc
  obtain ⟨sampling, c₆, -, hc⟩ := bind_eq_some hc
  obtain ⟨think, c₇, -, hc⟩ := bind_eq_some hc
  obtain ⟨keepMs, c₈, -, hc⟩ := bind_eq_some hc
  obtain ⟨rfl, -⟩ := pure_eq_some hc
  obtain rfl : messages = t.messages := congrArg Chat.messages (Ask.chat.inj hask)
  have hl : (t.messages.flatMap saidBytes).length < 2 ^ 32 := by
    simp only [talkRest, List.length_append] at hb
    omega
  rw [at_append] at hmessages
  exact counted_of_group hl (fun _ ha hm => reads_said ha hm)
    (fun _ _ _ _ hm => counted_of_readSaid hm) hmessages

/-! Embed -/

def embedFields (id room : UInt64) (dims : Option UInt64) : List (ℕ × ℕ) :=
  [(8, id.toNat), (8, 0), (8, room.toNat), (4, (dims.getD 0).toUInt32.toNat)]

def embedRest (model : String) (texts : List String) : List UInt8 :=
  (le 2 0 ++ le 2 texts.length) ++ (texts.flatMap data ++ data model)

section

variable {id room : UInt64} {model state : String} {texts : List String} {dims : Option UInt64}
  {conversation : Bool} {asked : List Asked} {before after : List UInt8} {c' : Cursor}

theorem embed_eq : Commands.embed id room model texts dims =
    request 2 id (((Fields.u64 [] 0).u64 room).u32 (dims.getD 0).toUInt32) ++
      embedRest model texts := by
  rw [Commands.embed, foldl_writes text_eq, text_eq, Writer.group]
  simp only [embedRest, List.append_assoc]

theorem embed_block : Fields.u64 [] id ++ ((Fields.u64 [] 0).u64 room).u32 (dims.getD 0).toUInt32 =
    layOut (embedFields id room dims) := by
  simp [Fields.u64, Fields.u32, embedFields, layOut, List.append_assoc]

theorem reads_readText {t : String} (h : (data t).length < 2 ^ 32) :
    Reads (readText 0) (data t) t :=
  reads_bind_nil (reads_take_of_length rfl) (reads_data h)

theorem reads_embed (hc : (Request.embed id room model texts dims).Counted)
    (hb : (embedRest model texts).length < 2 ^ 32) :
    Reads (readAsk 2 (layOut (embedFields id room dims))) (embedRest model texts)
      (Request.embed id room model texts dims).ask := by
  have hl : (texts.flatMap data).length < 2 ^ 32 ∧ (data model).length < 2 ^ 32 := by
    simp only [embedRest, List.length_append] at hb
    omega
  have htext (t : String) (ht : t ∈ texts) : Reads (readText 0) (data t) t :=
    reads_readText ((length_le_flatMap ht).trans_lt hl.1)
  have hdims : (dims.getD 0).toUInt32.toNat = (dims.getD 0).toNat := by
    rw [UInt64.toNat_toUInt32, Nat.mod_eq_of_lt hc.2]
  have hout : Block.blob (layOut (embedFields id room dims)) 8 = some ⟨0, room⟩ :=
    @blob_layOut (embedFields id room dims) 1 _ rfl rfl
  refine reads_bind_pure (v := ?_) ?_ Ask.embed
  refine reads_bind (reads_group 0 texts.length) ?_
  refine reads_bind (reads_counted hc.1 htext) ?_
  refine reads_bind_last (reads_data hl.2) ?_
  refine reads_option (@u32_layOut (embedFields id room dims) 3 _ rfl) ?_
  refine reads_option hout ?_
  rw [hdims]
  exact reads_pure _

theorem counted_of_embed
    (h : readAsk 2 (layOut (embedFields id room dims)) (at_ before (embedRest model texts) after) =
      some ((Request.embed id room model texts dims).ask, c')) :
    (Request.embed id room model texts dims).Counted := by
  obtain ⟨e, c₁, he, h⟩ := bind_eq_some h
  obtain ⟨hask, -⟩ := pure_eq_some h
  rw [embedRest, at_split] at he
  obtain ⟨g, c₂, hg, he⟩ := bind_eq_some he
  obtain ⟨rfl, rfl⟩ := (reads_group 0 texts.length).inv hg
  obtain ⟨texts', c₃, htexts, he⟩ := bind_eq_some he
  obtain ⟨model', c₄, -, he⟩ := bind_eq_some he
  obtain ⟨dims', c₅, hdims, he⟩ := bind_eq_some he
  obtain ⟨out', c₆, -, he⟩ := bind_eq_some he
  obtain ⟨rfl, -⟩ := pure_eq_some he
  obtain rfl : texts' = texts := congrArg Embed.texts (Ask.embed.inj hask)
  have hkept : dims'.toNat = (dims.getD 0).toNat := congrArg Embed.dims (Ask.embed.inj hask)
  exact ⟨counted_of_times htexts, hkept ▸ dims'.toNat_lt⟩

/-! Decide -/

def decideFields (id room : UInt64) (conversation : Bool) : List (ℕ × ℕ) :=
  [(8, id.toNat), (8, 0), (8, room.toNat), (1, (boolByte conversation).toNat)]

def decideRest (model state : String) (asked : List Asked) : List UInt8 :=
  (le 2 1 ++ le 2 asked.length) ++ (asked.flatMap askedBytes ++ (data model ++ data state))

theorem decide_eq : Commands.decide id room model state conversation asked =
    request 3 id (((Fields.u64 [] 0).u64 room).u8 (boolByte conversation)) ++
      decideRest model state asked := by
  rw [Commands.decide, asking_eq, text_eq, text_eq]
  simp only [decideRest, List.append_assoc]

theorem decide_block : Fields.u64 [] id ++ ((Fields.u64 [] 0).u64 room).u8 (boolByte conversation) =
    layOut (decideFields id room conversation) := by
  simp [Fields.u64, Fields.u8, decideFields, layOut, List.append_assoc]

theorem reads_decide (hc : (Request.decide id room model state conversation asked).Counted)
    (hb : (decideRest model state asked).length < 2 ^ 32) :
    Reads (readAsk 3 (layOut (decideFields id room conversation))) (decideRest model state asked)
      (Request.decide id room model state conversation asked).ask := by
  have hl : (asked.flatMap askedBytes).length < 2 ^ 32 ∧ (data model).length < 2 ^ 32 ∧
      (data state).length < 2 ^ 32 := by
    simp only [decideRest, List.length_append] at hb
    omega
  have hasked (q : Asked) (hq : q ∈ asked) : Reads (readAsked 1) (askedBytes q) q :=
    reads_asked (hc.2 q hq) ((length_le_flatMap hq).trans_lt hl.1)
  have hout : Block.blob (layOut (decideFields id room conversation)) 8 = some ⟨0, room⟩ :=
    @blob_layOut (decideFields id room conversation) 1 _ rfl rfl
  refine reads_bind_pure (v := ?_) ?_ Ask.decide
  refine reads_bind (reads_group 1 asked.length) ?_
  refine reads_bind (reads_counted hc.1 hasked) ?_
  refine reads_bind (reads_data hl.2.1) ?_
  refine reads_bind_last (reads_data hl.2.2) ?_
  refine reads_option (@u8_layOut (decideFields id room conversation) 3 _ rfl) ?_
  refine reads_option hout ?_
  rw [boolByte_ne_zero]
  exact reads_pure _

theorem counted_of_decide (hb : (decideRest model state asked).length < 2 ^ 32)
    (h : readAsk 3 (layOut (decideFields id room conversation))
      (at_ before (decideRest model state asked) after) =
      some ((Request.decide id room model state conversation asked).ask, c')) :
    (Request.decide id room model state conversation asked).Counted := by
  obtain ⟨d, c₁, hd, h⟩ := bind_eq_some h
  obtain ⟨hask, -⟩ := pure_eq_some h
  rw [decideRest, at_split] at hd
  obtain ⟨g, c₂, hg, hd⟩ := bind_eq_some hd
  obtain ⟨rfl, rfl⟩ := (reads_group 1 asked.length).inv hg
  obtain ⟨questions, c₃, hquestions, hd⟩ := bind_eq_some hd
  obtain ⟨model', c₄, -, hd⟩ := bind_eq_some hd
  obtain ⟨state', c₅, -, hd⟩ := bind_eq_some hd
  obtain ⟨conversation', c₆, -, hd⟩ := bind_eq_some hd
  obtain ⟨out', c₇, -, hd⟩ := bind_eq_some hd
  obtain ⟨rfl, -⟩ := pure_eq_some hd
  obtain rfl : questions = asked := congrArg Decide.questions (Ask.decide.inj hask)
  have hl : (questions.flatMap askedBytes).length < 2 ^ 32 := by
    simp only [decideRest, List.length_append] at hb
    omega
  rw [at_append] at hquestions
  exact counted_of_group hl (fun _ ho hq => reads_asked ho hq)
    (fun _ _ _ _ hq => counted_of_readAsked hq) hquestions

/-! The other requests -/

def loadFields (id : UInt64) (keep : Int64) (context : UInt32) (pin : Bool) : List (ℕ × ℕ) :=
  [(8, id.toNat), (8, keep.toUInt64.toNat), (4, context.toNat), (1, (boolByte pin).toNat)]

theorem load_block {keep : Int64} {context : UInt32} {pin : Bool} :
    Fields.u64 [] id ++ ((Fields.u64 [] keep.toUInt64).u32 context).u8 (boolByte pin) =
      layOut (loadFields id keep context pin) := by
  simp [Fields.u64, Fields.u32, Fields.u8, loadFields, layOut, List.append_assoc]

theorem id_block : Fields.u64 [] id ++ [] = layOut [(8, id.toNat)] := by
  simp [Fields.u64, layOut]

theorem reads_load {keep : Int64} {context : UInt32} {pin : Bool}
    (hb : (data model).length < 2 ^ 32) :
    Reads (readAsk 4 (layOut (loadFields id keep context pin))) (data model)
      (Request.load id model keep context pin).ask := by
  refine reads_bind_last (reads_data hb) ?_
  refine reads_option (@u64_layOut (loadFields id keep context pin) 1 _ rfl) ?_
  refine reads_option (@u32_layOut (loadFields id keep context pin) 2 _ rfl) ?_
  refine reads_option (@u8_layOut (loadFields id keep context pin) 3 _ rfl) ?_
  rw [keep_toUInt64, boolByte_ne_zero]
  exact reads_pure _

end

namespace Request

def template : Request → UInt16
  | chat .. => 1
  | embed .. => 2
  | decide .. => 3
  | load .. => 4
  | unload .. => 5
  | list _ => 6
  | shutdown _ => 7

def fields : Request → List (ℕ × ℕ)
  | chat i t => talkFields i t
  | embed i room _ _ dims => embedFields i room dims
  | decide i room _ _ conversation _ => decideFields i room conversation
  | load i _ keep context pin => loadFields i keep context pin
  | unload i _ | list i | shutdown i => [(8, i.toNat)]

/-- What stands behind the block: groups and texts. -/
def rest : Request → List UInt8
  | chat _ t => talkRest t
  | embed _ _ model texts _ => embedRest model texts
  | decide _ _ model state _ asked => decideRest model state asked
  | load _ model _ _ _ | unload _ model => data model
  | list _ | shutdown _ => []

theorem bytes_eq (r : Request) : r.bytes = new r.template (layOut r.fields) ++ r.rest := by
  cases r with
  | chat i t => rw [bytes, talk_eq, request, talk_block]; rfl
  | embed i room model texts dims => rw [bytes, embed_eq, request, embed_block]; rfl
  | decide i room model state conversation asked =>
    rw [bytes, decide_eq, request, decide_block]; rfl
  | load i model keep context pin =>
    rw [bytes, Commands.load, text_eq, request, load_block]; rfl
  | unload i model => rw [bytes, Commands.unload, text_eq, request, id_block]; rfl
  | list i => rw [bytes, Commands.ps, request, id_block, rest, List.append_nil]; rfl
  | shutdown i => rw [bytes, Commands.down, request, id_block, rest, List.append_nil]; rfl

theorem length_fields (r : Request) : (layOut r.fields).length < 65536 := by
  rw [length_layOut]
  cases r <;> simp [fields, talkFields, embedFields, decideFields, loadFields]

theorem id_field (r : Request) : Block.u64 (layOut r.fields) 0 = some r.id := by
  have h : r.fields[0]? = some (8, r.id.toNat) := by cases r <;> rfl
  exact u64_layOut h

theorem length_rest (r : Request) : r.rest.length ≤ r.bytes.length := by
  rw [r.bytes_eq, List.length_append]
  omega

/-- A request whose counts fit is read as it was meant. -/
theorem reads_ask (r : Request) (hc : r.Counted) (hb : r.rest.length < 2 ^ 32) :
    Reads (readAsk r.template.toNat (layOut r.fields)) r.rest r.ask := by
  cases r with
  | chat i t => exact reads_chat hc.1 hc.2 hb
  | embed i room model texts dims => exact reads_embed hc hb
  | decide i room model state conversation asked => exact reads_decide hc hb
  | load i model keep context pin => exact reads_load hb
  | unload i model => exact reads_bind_pure (reads_data hb) Ask.unload
  | list i => exact reads_pure Ask.list
  | shutdown i => exact reads_pure Ask.shutdown

/-- Only a request whose counts fit is. -/
theorem counted_of_ask (r : Request) (hb : r.rest.length < 2 ^ 32) {before after : List UInt8}
    {c' : Cursor} (h : readAsk r.template.toNat (layOut r.fields) (at_ before r.rest after) =
      some (r.ask, c')) : r.Counted := by
  cases r with
  | chat i t => exact counted_of_chat hb h
  | embed i room model texts dims => exact counted_of_embed h
  | decide i room model state conversation asked => exact counted_of_decide hb h
  | load | unload | list | shutdown => trivial

/-- The daemon finds a request's template, block and number, and reads on behind them. -/
theorem read_bytes (r : Request) (leftover : List UInt8) :
    read (r.bytes ++ leftover) =
      (r.id, (readAsk r.template.toNat (layOut r.fields)
        (at_ (new r.template (layOut r.fields)) r.rest leftover)).map Prod.fst) := by
  have hopen := reads_open r.template r.length_fields [] (r.rest ++ leftover)
  have hcursor : at_ [] (new r.template (layOut r.fields)) (r.rest ++ leftover) =
      ⟨r.bytes ++ leftover, 0⟩ := by simp [at_, r.bytes_eq]
  rw [hcursor, at_append] at hopen
  rw [read, hopen]
  simp only [r.id_field, Option.getD_some, List.nil_append]

theorem read_eq_ask_iff (r : Request) (fits : r.bytes.length ≤ REQUEST_BYTES)
    (leftover : List UInt8) : read (r.bytes ++ leftover) = (r.id, some r.ask) ↔ r.Counted := by
  have hb : r.rest.length < 2 ^ 32 := by
    have hrest := r.length_rest
    have hbound : REQUEST_BYTES < 2 ^ 32 := by decide
    omega
  rw [r.read_bytes leftover, Prod.mk.injEq, Option.map_eq_some_iff]
  constructor
  · rintro ⟨-, ⟨ask, c'⟩, hread, rfl⟩
    exact r.counted_of_ask hb hread
  · intro hc
    exact ⟨rfl, _, r.reads_ask hc hb _ leftover, rfl⟩

end Request

/-- `r` reads back as written from a request area that holds it, whatever fills the area
behind it. -/
def ReadsBack (r : Request) : Prop :=
  ∀ leftover : List UInt8, (r.bytes ++ leftover).length = REQUEST_BYTES →
    read (r.bytes ++ leftover) = (r.id, some r.ask)

/-- A request that fits the area reads back exactly when no count in it is cut. -/
theorem readsBack_iff (r : Request) (fits : r.bytes.length ≤ REQUEST_BYTES) :
    ReadsBack r ↔ r.Counted := by
  constructor
  · intro h
    have harea : (r.bytes ++ List.replicate (REQUEST_BYTES - r.bytes.length) 0).length =
        REQUEST_BYTES := by
      rw [List.length_append, List.length_replicate]
      omega
    exact (r.read_eq_ask_iff fits _).mp (h _ harea)
  · intro hc leftover _
    exact (r.read_eq_ask_iff fits leftover).mpr hc

theorem readsBack_two_texts :
    ReadsBack (.embed 7 4096 "granite" ["one", "two"] (some 256)) :=
  (readsBack_iff _ (by decide)).mpr ⟨by decide, by decide⟩

theorem length_embedRest (model : String) (n : ℕ) :
    (embedRest model (List.replicate n "")).length = 4 + (4 * n + (data model).length) := by
  have hdata : (data "").length = 4 := by decide
  simp only [embedRest, List.length_append, List.length_flatMap, List.map_replicate,
    List.sum_replicate, length_le, hdata, smul_eq_mul]
  omega

/-- 2^16 empty texts to embed, a quarter of the request area. -/
def manyTexts : Request := .embed 7 4096 "granite" (List.replicate 65536 "") none

/-- Their count is written as 0. -/
theorem manyTexts_lost : manyTexts.bytes.length ≤ REQUEST_BYTES ∧ ¬ReadsBack manyTexts := by
  have hmodel : (data "granite").length = 11 := by decide
  have hrest : manyTexts.rest.length = 4 + (4 * 65536 + 11) :=
    (length_embedRest "granite" 65536).trans (by rw [hmodel])
  have hheader : (new manyTexts.template (layOut manyTexts.fields)).length = 36 := by
    decide
  have fits : manyTexts.bytes.length ≤ REQUEST_BYTES := by
    rw [manyTexts.bytes_eq, List.length_append, hheader, hrest]
    decide
  refine ⟨fits, fun h => ?_⟩
  have hread := h (List.replicate (REQUEST_BYTES - manyTexts.bytes.length) 0) (by
    rw [List.length_append, List.length_replicate]
    omega)
  have hcounted : manyTexts.Counted := (manyTexts.read_eq_ask_iff fits _).mp hread
  have hfew := hcounted.1
  rw [List.length_replicate] at hfew
  exact absurd hfew (lt_irrefl 65536)

end Chatlink.Serve
