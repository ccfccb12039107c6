import Chatlink.Net.Keeping

/-!
# The other end of the sealed records

A peer opens the records one after the other with the keys it is at. It moves to the next keys
after a `KeyUpdate`, and to the application keys after a `Finished`. What it opens so was sealed
under one pair of key and nonce at most, whoever sealed it.
-/
namespace Chatlink.Net

/-- What is relied on of the primitives: the size of a code, and that what was sealed opens. -/
structure Crypto.Lawful (c : Crypto) : Prop where
  length_hmac (key m : List UInt8) : (c.hmac key m).length = 32
  open_seal (key nonce header m : List UInt8) :
    c.gcmOpen key nonce header (c.gcmSeal key nonce header m) = some m

/-- The keys the peer reads with, if any, and how many there have been. -/
structure Peer where
  keys : Option Direction
  generation : ℕ

/-- What the peer finds in a record, and where it found it. -/
structure Opening where
  generation : ℕ
  nonce : List UInt8
  content : List UInt8
  kind : UInt8
  deriving DecidableEq

def Sealed.opening (r : Sealed) : Opening := ⟨r.generation, r.nonce, r.content, r.kind⟩

def Opening.IsKeyUpdate (o : Opening) : Prop := o.kind = HANDSHAKE ∧ o.content.headD 0 = KEY_UPDATE

def Opening.IsFinished (o : Opening) : Prop := o.kind = HANDSHAKE ∧ o.content.headD 0 = FINISHED

instance (o : Opening) : Decidable o.IsKeyUpdate := inferInstanceAs (Decidable (_ ∧ _))

instance (o : Opening) : Decidable o.IsFinished := inferInstanceAs (Decidable (_ ∧ _))

/-- A message after which the sender writes with other keys. -/
def Opening.Announces (o : Opening) : Prop := o.IsKeyUpdate ∨ o.IsFinished

instance (o : Opening) : Decidable o.Announces := inferInstanceAs (Decidable (_ ∨ _))

/-- The peer after `o`, with the keys `d` that have counted it. -/
def Peer.next (c : Crypto) (app : List UInt8) (d : Direction) (o : Opening) : Peer :=
  if o.IsKeyUpdate then ⟨some (d.update c), o.generation + 1⟩
  else if o.IsFinished then ⟨some (Direction.new c app), o.generation + 1⟩
  else ⟨some d, o.generation⟩

/-- One record; `app` is the secret behind the application keys. -/
def Peer.read (c : Crypto) (app : List UInt8) (peer : Peer) (header body : List UInt8) :
    Option (Opening × Peer) := do
  let d ← peer.keys
  let (nonce, d) ← d.nonce
  let opened ← c.gcmOpen d.key nonce header body
  let (content, kind) ← unpad opened
  let o : Opening := ⟨peer.generation, nonce, content, kind⟩
  pure (o, Peer.next c app d o)

def Peer.readAll (c : Crypto) (app : List UInt8) : Peer → List Sealed → Option (List Opening × Peer)
  | peer, [] => some ([], peer)
  | peer, r :: rs => do
    let (o, peer) ← peer.read c app r.header r.body
    let (os, peer) ← peer.readAll c app rs
    pure (o :: os, peer)

/-- The peer opens every record as it was sealed. -/
def Reads (c : Crypto) (app : List UInt8) (peer : Peer) (rs : List Sealed) (peer' : Peer) : Prop :=
  peer.readAll c app rs = some (rs.map Sealed.opening, peer')

variable {c : Crypto} {app : List UInt8} {peer peer' peer'' : Peer} {r : Sealed} {rs rs' : List Sealed}
  {d : Direction}

theorem Reads.nil : Reads c app peer [] peer := rfl

theorem reads_cons : Reads c app peer (r :: rs) peer'' ↔
    ∃ peer', peer.read c app r.header r.body = some (r.opening, peer') ∧ Reads c app peer' rs peer'' := by
  unfold Reads
  rw [Peer.readAll]
  constructor
  · intro h
    obtain ⟨⟨o, p₁⟩, hread, h⟩ := Option.bind_eq_some_iff.mp h
    obtain ⟨⟨os, p₂⟩, hall, h⟩ := Option.bind_eq_some_iff.mp h
    obtain ⟨hos, rfl⟩ := Prod.mk.inj (Option.some.inj h)
    obtain ⟨rfl, rfl⟩ := List.cons.inj hos
    exact ⟨p₁, hread, hall⟩
  · rintro ⟨p₁, hread, hall⟩
    rw [hread]
    simp [hall]

theorem Reads.append (h : Reads c app peer rs peer') (h' : Reads c app peer' rs' peer'') :
    Reads c app peer (rs ++ rs') peer'' := by
  induction rs generalizing peer with
  | nil =>
    obtain rfl : peer = peer' := (Prod.mk.inj (Option.some.inj h)).2
    exact h'
  | cons r rs ih =>
    obtain ⟨p₁, hread, hrest⟩ := reads_cons.mp h
    exact reads_cons.mpr ⟨p₁, hread, ih hrest⟩

/-- Without keys nothing can be read. -/
theorem Reads.of_keys_none (hk : peer.keys = none) (h : Reads c app peer rs peer') :
    rs = [] ∧ peer' = peer := by
  cases rs with
  | nil => exact ⟨rfl, (Prod.mk.inj (Option.some.inj h)).2.symm⟩
  | cons r rs =>
    obtain ⟨p₁, hread, -⟩ := reads_cons.mp h
    simp [Peer.read, hk] at hread

/-- What one record tells. -/
theorem read_eq_some {header body : List UInt8} {o : Opening}
    (h : peer.read c app header body = some (o, peer')) :
    ∃ d, peer.keys = some d ∧ o.generation = peer.generation ∧ o.nonce = d.nonceAt d.seq ∧
      d.seq + 1 < 2 ^ 64 ∧ peer' = Peer.next c app { d with seq := d.seq + 1 } o := by
  obtain ⟨d, hd, h⟩ := Option.bind_eq_some_iff.mp h
  obtain ⟨⟨nonce, d'⟩, hnonce, h⟩ := Option.bind_eq_some_iff.mp h
  obtain ⟨opened, -, h⟩ := Option.bind_eq_some_iff.mp h
  obtain ⟨⟨content, kind⟩, -, h⟩ := Option.bind_eq_some_iff.mp h
  obtain ⟨rfl, rfl⟩ := Prod.mk.inj (Option.some.inj h)
  obtain ⟨rfl, rfl, hlt⟩ := nonce_eq_some hnonce
  exact ⟨d, hd, rfl, rfl, hlt, rfl⟩

/-! ### Generations -/

theorem Peer.next_generation (o : Opening) : (Peer.next c app d o).generation =
    if o.Announces then o.generation + 1 else o.generation := by
  unfold Peer.next Opening.Announces
  by_cases hu : o.IsKeyUpdate
  · simp [hu]
  · by_cases hf : o.IsFinished
    · simp [hu, hf]
    · simp [hu, hf]

theorem Peer.next_of_not_announces {o : Opening} (h : ¬o.Announces) :
    Peer.next c app d o = ⟨some d, o.generation⟩ := by
  obtain ⟨hu, hf⟩ := not_or.mp h
  rw [Peer.next, if_neg hu, if_neg hf]

/-- Generations only go up. -/
theorem Reads.generation_le (h : Reads c app peer rs peer') :
    peer.generation ≤ peer'.generation ∧
      ∀ r ∈ rs, peer.generation ≤ r.generation ∧ r.generation ≤ peer'.generation := by
  induction rs generalizing peer with
  | nil =>
    obtain rfl : peer = peer' := (Prod.mk.inj (Option.some.inj h)).2
    exact ⟨le_rfl, nofun⟩
  | cons r rs ih =>
    obtain ⟨p₁, hread, hrest⟩ := reads_cons.mp h
    obtain ⟨d, -, hgen, -, -, hnext⟩ := read_eq_some hread
    obtain ⟨hle, hall⟩ := ih hrest
    have hstep : r.generation = peer.generation ∧ peer.generation ≤ p₁.generation := by
      refine ⟨hgen, ?_⟩
      rw [hnext, Peer.next_generation]
      split_ifs <;> omega
    refine ⟨hstep.2.trans hle, ?_⟩
    intro r' hr'
    rcases List.mem_cons.mp hr' with rfl | hr'
    · exact ⟨hstep.1.ge, hstep.1.le.trans (hstep.2.trans hle)⟩
    · exact ⟨hstep.2.trans (hall r' hr').1, (hall r' hr').2⟩

/-- The records of one generation. -/
def ofGeneration (g : ℕ) (rs : List Sealed) : List Sealed := rs.filter fun r => r.generation = g

/-- Every generation but the last ends with the one message that announces the next keys; the
last has none. -/
theorem Reads.announced (h : Reads c app peer rs peer') :
    (∀ g, peer.generation ≤ g → g < peer'.generation → ∃ before r,
      ofGeneration g rs = before ++ [r] ∧ r.opening.Announces ∧
      ∀ r' ∈ before, ¬r'.opening.Announces) ∧
    ∀ r ∈ ofGeneration peer'.generation rs, ¬r.opening.Announces := by
  induction rs generalizing peer with
  | nil =>
    obtain rfl : peer = peer' := (Prod.mk.inj (Option.some.inj h)).2
    exact ⟨fun g hle hlt => absurd hle (by omega), nofun⟩
  | cons r rs ih =>
    obtain ⟨p₁, hread, hrest⟩ := reads_cons.mp h
    obtain ⟨d, -, hgen, -, -, hnext⟩ := read_eq_some hread
    have hr : r.generation = peer.generation := hgen
    obtain ⟨hends, hlast⟩ := ih hrest
    obtain ⟨hle, hbounds⟩ := hrest.generation_le
    have hp₁ : p₁.generation = if r.opening.Announces then r.generation + 1 else r.generation := by
      rw [hnext, Peer.next_generation]
      rfl
    by_cases ha : r.opening.Announces
    · -- the next records are of a later generation
      rw [if_pos ha] at hp₁
      constructor
      · intro g hg hlt
        rcases Nat.eq_or_lt_of_le hg with rfl | hg
        · have hnone : ofGeneration peer.generation rs = [] := by
            refine List.filter_eq_nil_iff.mpr fun r' hr' => ?_
            have := (hbounds r' hr').1
            simp only [decide_eq_true_eq]
            omega
          refine ⟨[], r, ?_, ha, nofun⟩
          rw [ofGeneration, List.filter_cons_of_pos (by simpa using hr), ← ofGeneration, hnone]
          rfl
        · obtain ⟨before, r', hsplit, hann, hnot⟩ := hends g (by omega) hlt
          refine ⟨before, r', ?_, hann, hnot⟩
          rw [ofGeneration, List.filter_cons_of_neg (by simp only [decide_eq_true_eq]; omega)]
          exact hsplit
      · rw [ofGeneration, List.filter_cons_of_neg (by simp only [decide_eq_true_eq]; omega)]
        exact hlast
    · rw [if_neg ha] at hp₁
      constructor
      · intro g hg hlt
        obtain ⟨before, r', hsplit, hann, hnot⟩ := hends g (by omega) hlt
        by_cases hrg : r.generation = g
        · refine ⟨r :: before, r', ?_, hann, ?_⟩
          · rw [ofGeneration, List.filter_cons_of_pos (by simpa using hrg), ← ofGeneration, hsplit]
            rfl
          · intro r'' hr''
            rcases List.mem_cons.mp hr'' with rfl | hr''
            · exact ha
            · exact hnot r'' hr''
        · refine ⟨before, r', ?_, hann, hnot⟩
          rw [ofGeneration, List.filter_cons_of_neg (by simpa using hrg)]
          exact hsplit
      · intro r' hr'
        rw [ofGeneration, List.mem_filter] at hr'
        rcases List.mem_cons.mp hr'.1 with rfl | hmem
        · exact ha
        · exact hlast r' (List.mem_filter.mpr ⟨hmem, hr'.2⟩)

/-! ### Nonces -/

theorem length_hkdfExpand (hc : c.Lawful) (prk info : List UInt8) (len : ℕ) :
    (hkdfExpand c prk info len).length = len := by
  have hblocks (left i : ℕ) (t : List UInt8) : (hkdfBlocks c prk info left i t).length = 32 * left := by
    induction left generalizing i t with
    | zero => rfl
    | succ left ih =>
      rw [hkdfBlocks, List.length_append, hc.length_hmac, ih]
      omega
  rw [hkdfExpand, List.length_take, hblocks]
  omega

theorem length_iv (hc : c.Lawful) (secret : List UInt8) : (Direction.new c secret).iv.length = 12 :=
  length_hkdfExpand hc _ _ 12

/-- A key has another nonce for every record. -/
theorem nonceAt_inj {i j : ℕ} (hiv : d.iv.length = 12) (hi : i < 2 ^ 64) (hj : j < 2 ^ 64)
    (h : d.nonceAt i = d.nonceAt j) : i = j := by
  have hzip := List.append_cancel_left h
  have hbytes : bigBytes 8 i = bigBytes 8 j := by
    refine List.ext_getElem (by simp) fun n hn hn' => ?_
    rw [length_bigBytes] at hn hn'
    have hget := congrArg (fun l => l[n]?) hzip
    rw [List.getElem?_zipWith, List.getElem?_zipWith] at hget
    rw [List.getElem?_eq_getElem (by simp only [List.length_drop]; omega),
      List.getElem?_eq_getElem (by simpa using hn), List.getElem?_eq_getElem (by simpa using hn)] at hget
    exact (UInt8.xor_right_inj _).mp (Option.some.inj hget)
  rw [← @big_bigBytes i 8 (by omega), hbytes, big_bigBytes (by omega)]

theorem next_keys_iv (hc : c.Lawful) {d' : Direction} {o : Opening}
    (h : (Peer.next c app d o).keys = some d') (hiv : d.iv.length = 12) : d'.iv.length = 12 := by
  unfold Peer.next at h
  split_ifs at h
  · obtain rfl := Option.some.inj h
    exact length_iv hc _
  · obtain rfl := Option.some.inj h
    exact length_iv hc _
  · obtain rfl := Option.some.inj h
    exact hiv

/-- The records under the keys of the peer are counted from where it is. -/
theorem Reads.counted (h : Reads c app peer rs peer') (hd : peer.keys = some d) :
    ∀ r ∈ rs, r.generation = peer.generation →
      ∃ i, d.seq ≤ i ∧ i < 2 ^ 64 ∧ r.nonce = d.nonceAt i := by
  induction rs generalizing peer d with
  | nil => nofun
  | cons r rs ih =>
    obtain ⟨p₁, hread, hrest⟩ := reads_cons.mp h
    obtain ⟨d', hd', hgen, hnonce, hlt, hnext⟩ := read_eq_some hread
    obtain rfl := Option.some.inj (hd.symm.trans hd')
    intro r' hr' hr'gen
    rcases List.mem_cons.mp hr' with rfl | hr'
    · exact ⟨d.seq, le_rfl, by omega, hnonce⟩
    · by_cases ha : r.opening.Announces
      · have hle := (hrest.generation_le.2 r' hr').1
        rw [hnext, Peer.next_generation, if_pos ha, hgen] at hle
        omega
      · rw [Peer.next_of_not_announces ha] at hnext
        obtain ⟨i, hle, hi, hr'nonce⟩ := ih hrest (by rw [hnext]) r' hr' (by rw [hnext, hr'gen, hgen])
        exact ⟨i, Nat.le_of_succ_le hle, hi, hr'nonce⟩

/-- No two records share a key and a nonce. -/
theorem Reads.nodup (hc : c.Lawful) (h : Reads c app peer rs peer')
    (hiv : ∀ d, peer.keys = some d → d.iv.length = 12) :
    (rs.map fun r => (r.generation, r.nonce)).Nodup := by
  induction rs generalizing peer with
  | nil => exact List.nodup_nil
  | cons r rs ih =>
    obtain ⟨p₁, hread, hrest⟩ := reads_cons.mp h
    obtain ⟨d, hd, hgen, hnonce, hlt, hnext⟩ := read_eq_some hread
    have hiv' (d' : Direction) (h' : p₁.keys = some d') : d'.iv.length = 12 := by
      rw [hnext] at h'
      exact next_keys_iv hc h' (hiv d hd)
    refine List.nodup_cons.mpr ⟨?_, ih hrest hiv'⟩
    intro hmem
    obtain ⟨r', hr', hpair⟩ := List.mem_map.mp hmem
    obtain ⟨hg, hn⟩ := Prod.mk.inj hpair
    have hle := (hrest.generation_le.2 r' hr').1
    have hr : r.generation = peer.generation := hgen
    by_cases ha : r.opening.Announces
    · rw [hnext, Peer.next_generation, if_pos ha, hgen] at hle
      omega
    · rw [Peer.next_of_not_announces ha] at hnext
      obtain ⟨i, hi, hi64, hr'nonce⟩ := hrest.counted (by rw [hnext]) r' hr' (by rw [hnext, hg, hr, hgen])
      have hsame : d.nonceAt i = d.nonceAt d.seq := by
        rw [← show r.nonce = d.nonceAt d.seq from hnonce, ← hn, hr'nonce]
        rfl
      have := nonceAt_inj (hiv d hd) hi64 (by omega) hsame
      simp only at hi
      omega

end Chatlink.Net
