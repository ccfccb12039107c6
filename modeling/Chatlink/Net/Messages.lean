import Chatlink.Lib.Lists
import Chatlink.Net.Tls

/-!
# What a handshake message that is read looks like

The readers take a message apart from the front; here is the message put together again from
what they return, so that an accepted message is known by its bytes.
-/
namespace Chatlink.Net

variable {c : Crypto} {bs body rest rest' v w id share : List UInt8} {n width k : ℕ}

/-! ### Numbers -/

theorem big_append (as bs : List UInt8) : big (as ++ bs) = big as * 256 ^ bs.length + big bs := by
  have hfold (n : ℕ) (bs : List UInt8) :
      bs.foldl (fun n b => n * 256 + b.toNat) n = n * 256 ^ bs.length + big bs := by
    induction bs generalizing n with
    | nil => simp [big]
    | cons b bs ih =>
      simp only [big, List.foldl_cons, List.length_cons]
      rw [ih, ih (0 * 256 + b.toNat), pow_succ]
      ring
  rw [big, List.foldl_append, hfold]
  rfl

theorem big_lt (bs : List UInt8) : big bs < 256 ^ bs.length := by
  induction bs using List.reverseRecOn with
  | nil => simp [big]
  | append_singleton bs b ih =>
    have hb : big [b] = b.toNat := by simp [big]
    have hlt := b.toNat_lt
    rw [big_append, hb, List.length_append, List.length_singleton, pow_one, pow_succ]
    omega

theorem bigBytes_succ (len n : ℕ) :
    bigBytes (len + 1) n = bigBytes len (n / 256) ++ [UInt8.ofNat n] := by
  have hdiv (i : ℕ) : n / 256 ^ (i + 1) = n / 256 / 256 ^ i := by
    rw [pow_succ', Nat.div_div_eq_div_mul]
  simp [bigBytes, List.range_succ_eq_map, Function.comp_def, hdiv]

@[simp] theorem length_bigBytes (len n : ℕ) : (bigBytes len n).length = len := by
  simp [bigBytes]

theorem bigBytes_big (bs : List UInt8) : bigBytes bs.length (big bs) = bs := by
  induction bs using List.reverseRecOn with
  | nil => rfl
  | append_singleton bs b ih =>
    have hb : big [b] = b.toNat := by simp [big]
    have hlt := b.toNat_lt
    have hdiv : big (bs ++ [b]) / 256 = big bs := by
      rw [big_append, hb, List.length_singleton, pow_one]
      omega
    have hmod : UInt8.ofNat (big (bs ++ [b])) = b := by
      rw [big_append, hb, List.length_singleton, pow_one]
      apply UInt8.toNat_inj.mp
      rw [UInt8.toNat_ofNat']
      omega
    rw [List.length_append, List.length_singleton, bigBytes_succ, hdiv, hmod, ih]

theorem big_bigBytes {len : ℕ} (h : n < 256 ^ len) : big (bigBytes len n) = n := by
  induction len generalizing n with
  | zero =>
    obtain rfl : n = 0 := by simpa using h
    rfl
  | succ len ih =>
    have hdiv : n / 256 < 256 ^ len := by
      rw [pow_succ] at h
      exact Nat.div_lt_of_lt_mul (by omega)
    have hb : big [UInt8.ofNat n] = n % 256 := by simp [big]
    rw [bigBytes_succ, big_append, ih hdiv, hb, List.length_singleton, pow_one]
    omega

/-! ### Readers -/

namespace Reading

theorem bytes_eq_ok (h : bytes n rest = .ok (v, rest')) : rest = v ++ rest' ∧ v.length = n := by
  unfold bytes at h
  split_ifs at h with hn
  obtain ⟨rfl, rfl⟩ := Prod.mk.inj (Except.ok.inj h)
  exact ⟨(List.take_append_drop n rest).symm, List.length_take_of_le hn⟩

/-- What a sequence of readers takes apart. -/
theorem bind_eq_ok {α β : Type} {x : Reading α} {f : α → Reading β} {b : β}
    (h : (x >>= f) rest = .ok (b, rest')) :
    ∃ a r, x rest = .ok (a, r) ∧ f a r = .ok (b, rest') := by
  change (x rest >>= fun p => f p.1 p.2) = _ at h
  cases hx : x rest with
  | error err =>
    rw [hx] at h
    cases h
  | ok p =>
    rw [hx] at h
    exact ⟨p.1, p.2, rfl, h⟩

theorem pure_eq_ok {α : Type} {a b : α} (h : (pure a : Reading α) rest = .ok (b, rest')) :
    a = b ∧ rest = rest' :=
  Prod.mk.inj (Except.ok.inj h)

theorem int_eq_ok (h : int width rest = .ok (n, rest')) :
    rest = bigBytes width n ++ rest' ∧ n < 256 ^ width := by
  obtain ⟨bs, r, hbs, hpure⟩ := bind_eq_ok h
  obtain ⟨rfl, rfl⟩ := pure_eq_ok hpure
  obtain ⟨hrest, rfl⟩ := bytes_eq_ok hbs
  rw [bigBytes_big]
  exact ⟨hrest, big_lt bs⟩

theorem vec_eq_ok (h : vec width rest = .ok (v, rest')) :
    rest = prefixed width v ++ rest' ∧ v.length < 256 ^ width := by
  obtain ⟨n, r, hn, hv⟩ := bind_eq_ok h
  obtain ⟨hrest, hlt⟩ := int_eq_ok hn
  obtain ⟨hr, rfl⟩ := bytes_eq_ok hv
  rw [hrest, hr, prefixed, List.append_assoc]
  exact ⟨rfl, hlt⟩

theorem finish_eq_ok {u : Unit} (h : finish rest = .ok (u, rest')) : rest = [] ∧ rest' = [] := by
  unfold finish at h
  split_ifs at h with hr
  exact ⟨hr, (Prod.mk.inj (Except.ok.inj h)).2.symm⟩

theorem fail_ne_ok {α : Type} {a : Alert} {x : α} : (fail a : Reading α) rest ≠ .ok (x, rest') :=
  nofun

theorem require_eq_ok {q : Prop} [Decidable q] {a : Alert} {u : Unit}
    (h : require q a rest = .ok (u, rest')) : q ∧ rest = rest' := by
  unfold require at h
  split_ifs at h with hq
  · exact ⟨hq, (pure_eq_ok h).2⟩
  · exact absurd h fail_ne_ok

section Extensions

variable {σ : Type} {each : σ → ℕ → List UInt8 → Except TlsError σ} {acc acc' : σ} {fuel seen : ℕ}

/-- The extensions of a block, and what they leave of the state. -/
theorem extensionsFrom_eq_ok (hfuel : rest.length ≤ fuel)
    (h : extensionsFrom each fuel seen acc rest = .ok acc') :
    ∃ exts : List (ℕ × List UInt8), rest = exts.flatMap (fun x => extension x.1 x.2) ∧
      exts.foldlM (fun acc x => each acc x.1 x.2) acc = .ok acc' := by
  induction fuel generalizing seen acc rest with
  | zero =>
    obtain rfl : rest = [] := List.length_eq_zero_iff.mp (by omega)
    exact ⟨[], rfl, h⟩
  | succ fuel ih =>
    cases rest with
    | nil =>
      exact ⟨[], rfl, h⟩
    | cons b bs =>
      obtain ⟨⟨kind, r⟩, hkind, h⟩ := Lists.bind_eq_ok h
      obtain ⟨⟨data, r'⟩, hdata, h⟩ := Lists.bind_eq_ok h
      obtain ⟨hrest, -⟩ := int_eq_ok hkind
      obtain ⟨hr, -⟩ := vec_eq_ok hdata
      dsimp only at h
      by_cases hseen : (kind < 64 && seen.testBit kind) = true
      · rw [if_pos hseen] at h
        cases h
      rw [if_neg hseen] at h
      obtain ⟨acc₁, hacc, h⟩ := Lists.bind_eq_ok h
      have hlen : r'.length ≤ fuel := by
        have := congrArg List.length (hrest.trans (congrArg _ hr))
        simp only [List.length_append, length_bigBytes] at this
        simp only [List.length_cons] at this hfuel
        omega
      obtain ⟨exts, hexts, hfold⟩ := ih hlen h
      refine ⟨(kind, data) :: exts, ?_, ?_⟩
      · rw [hrest, hr, hexts, List.flatMap_cons, extension, List.append_assoc]
      · rw [List.foldlM_cons, hacc]
        exact hfold

theorem extensions_eq_ok (h : Reading.extensions each acc rest = .ok (acc', rest')) :
    ∃ exts : List (ℕ × List UInt8),
      rest = prefixed 2 (exts.flatMap fun x => extension x.1 x.2) ++ rest' ∧
      exts.foldlM (fun acc x => each acc x.1 x.2) acc = .ok acc' := by
  obtain ⟨block, r, hblock, h⟩ := bind_eq_ok h
  obtain ⟨hrest, -⟩ := vec_eq_ok hblock
  obtain ⟨acc₁, hacc, h⟩ := Lists.bind_eq_ok h
  obtain ⟨rfl, rfl⟩ := pure_eq_ok h
  obtain ⟨exts, hexts, hfold⟩ := extensionsFrom_eq_ok le_rfl hacc
  exact ⟨exts, by rw [hrest, hexts], hfold⟩

end Extensions

end Reading

theorem map_fst_eq_ok {α : Type} {x : Except TlsError (α × List UInt8)} {a : α}
    (h : (·.1) <$> x = .ok a) : ∃ r, x = .ok (a, r) := by
  cases x with
  | error err => cases h
  | ok p => exact ⟨p.2, by rw [← Except.ok.inj h]⟩

/-! ### The messages -/

/-- A handshake message of `kind`. -/
def handshakeMessage (kind : UInt8) (body : List UInt8) : List UInt8 := [kind] ++ prefixed 3 body

theorem drop_handshakeMessage (kind : UInt8) (body : List UInt8) :
    (handshakeMessage kind body).drop 4 = body := by
  simp [handshakeMessage, prefixed]

/-- A `ServerHello` of TLS 1.3 that repeats the session's id and takes the cipher suite the
client offers, with an X25519 share. -/
def IsServerHello (id body share : List UInt8) : Prop :=
  ∃ (random : List UInt8) (exts : List (ℕ × List UInt8)),
    body = [3, 3] ++ random ++ prefixed 1 id ++ AES_128_GCM_SHA256 ++ [0] ++
      prefixed 2 (exts.flatMap fun x => extension x.1 x.2) ∧
    random.length = 32 ∧ random ≠ RETRY_RANDOM ∧ (SUPPORTED_VERSIONS, TLS13) ∈ exts ∧
    (KEY_SHARE, bigBytes 2 X25519 ++ prefixed 2 share) ∈ exts ∧ share.length = 32

/-- What one extension says of the version and the share. -/
theorem helloExtension_eq_ok {o o' : Offer} {kind : ℕ} {data : List UInt8}
    (h : helloExtension o kind data = .ok o') :
    (kind = SUPPORTED_VERSIONS ∧ o'.share = o.share ∧ (o'.tls13 = true → data = TLS13)) ∨
      (kind = KEY_SHARE ∧ o'.tls13 = o.tls13 ∧ ∃ share, o'.share = some share ∧
        share.length = 32 ∧ data = bigBytes 2 X25519 ++ prefixed 2 share) := by
  obtain ⟨r, h⟩ := map_fst_eq_ok h
  split_ifs at h with hv hk
  · obtain ⟨version, r₁, hversion, h⟩ := Reading.bind_eq_ok h
    obtain ⟨u, r₂, hfinish, h⟩ := Reading.bind_eq_ok h
    obtain ⟨rfl, rfl⟩ := Reading.pure_eq_ok h
    obtain ⟨hdata, -⟩ := Reading.bytes_eq_ok hversion
    obtain ⟨rfl, -⟩ := Reading.finish_eq_ok hfinish
    refine .inl ⟨hv, rfl, ?_⟩
    intro htls
    rw [hdata, List.append_nil]
    simpa using htls
  · obtain ⟨group, r₁, hgroup, h⟩ := Reading.bind_eq_ok h
    obtain ⟨hdata, -⟩ := Reading.int_eq_ok hgroup
    split_ifs at h with hx
    · obtain ⟨share, r₂, hshare, h⟩ := Reading.bind_eq_ok h
      obtain ⟨hr₁, -⟩ := Reading.vec_eq_ok hshare
      split_ifs at h with hlen
      · obtain ⟨u, r₃, hfinish, h⟩ := Reading.bind_eq_ok h
        obtain ⟨rfl, rfl⟩ := Reading.pure_eq_ok h
        obtain ⟨rfl, -⟩ := Reading.finish_eq_ok hfinish
        refine .inr ⟨hk, rfl, share, rfl, hlen, ?_⟩
        rw [hdata, hr₁, hx, List.append_nil]
      · exact absurd h Reading.fail_ne_ok
    · exact absurd h Reading.fail_ne_ok
  · exact absurd h Reading.fail_ne_ok

/-- The version and the share come from extensions of the list. -/
theorem foldlM_helloExtension {exts : List (ℕ × List UInt8)} {o o' : Offer}
    (h : exts.foldlM (fun o x => helloExtension o x.1 x.2) o = .ok o') :
    (o'.tls13 = true → o.tls13 = true ∨ (SUPPORTED_VERSIONS, TLS13) ∈ exts) ∧
      ∀ share, o'.share = some share → o.share = some share ∨
        share.length = 32 ∧ (KEY_SHARE, bigBytes 2 X25519 ++ prefixed 2 share) ∈ exts := by
  induction exts generalizing o with
  | nil =>
    obtain rfl := Except.ok.inj h
    exact ⟨.inl, fun _ => .inl⟩
  | cons x exts ih =>
    rw [List.foldlM_cons] at h
    obtain ⟨o₁, hx, h⟩ := Lists.bind_eq_ok h
    obtain ⟨hversion, hshare⟩ := ih h
    obtain ⟨kind, data⟩ := x
    rcases helloExtension_eq_ok hx with ⟨rfl, hsame, hdata⟩ | ⟨rfl, hsame, share₁, hsome, hlen, rfl⟩
    · refine ⟨fun htls => ?_, fun share hs => ?_⟩
      · rcases hversion htls with htls | hmem
        · obtain rfl : data = TLS13 := hdata htls
          exact .inr List.mem_cons_self
        · exact .inr (List.mem_cons_of_mem _ hmem)
      · rcases hshare share hs with hs | ⟨hlen, hmem⟩
        · exact .inl (hsame ▸ hs)
        · exact .inr ⟨hlen, List.mem_cons_of_mem _ hmem⟩
    · refine ⟨fun htls => ?_, fun share hs => ?_⟩
      · rcases hversion htls with htls | hmem
        · exact .inl (hsame ▸ htls)
        · exact .inr (List.mem_cons_of_mem _ hmem)
      · rcases hshare share hs with hs | ⟨hlen', hmem⟩
        · obtain rfl := Option.some.inj (hsome.symm.trans hs)
          exact .inr ⟨hlen, List.mem_cons_self⟩
        · exact .inr ⟨hlen', List.mem_cons_of_mem _ hmem⟩

theorem helloFields_eq_ok {u : Unit} (h : helloFields id rest = .ok (u, rest')) :
    ∃ random, rest = [3, 3] ++ random ++ prefixed 1 id ++ AES_128_GCM_SHA256 ++ [0] ++ rest' ∧
      random.length = 32 ∧ random ≠ RETRY_RANDOM := by
  obtain ⟨version, r₁, hversion, h⟩ := Reading.bind_eq_ok h
  obtain ⟨_, _, hcheck, h⟩ := Reading.bind_eq_ok h
  obtain ⟨rfl, rfl⟩ := Reading.require_eq_ok hcheck
  obtain ⟨random, r₂, hrandom, h⟩ := Reading.bind_eq_ok h
  obtain ⟨_, _, hcheck, h⟩ := Reading.bind_eq_ok h
  obtain ⟨hretry, rfl⟩ := Reading.require_eq_ok hcheck
  obtain ⟨id', r₃, hid, h⟩ := Reading.bind_eq_ok h
  obtain ⟨suite, r₄, hsuite, h⟩ := Reading.bind_eq_ok h
  obtain ⟨compression, r₅, hcompression, h⟩ := Reading.bind_eq_ok h
  obtain ⟨⟨rfl, rfl, rfl⟩, rfl⟩ := Reading.require_eq_ok h
  obtain ⟨hrest, -⟩ := Reading.bytes_eq_ok hversion
  obtain ⟨hr₁, hlen⟩ := Reading.bytes_eq_ok hrandom
  obtain ⟨hr₂, -⟩ := Reading.vec_eq_ok hid
  obtain ⟨hr₃, -⟩ := Reading.bytes_eq_ok hsuite
  obtain ⟨hr₄, -⟩ := Reading.bytes_eq_ok hcompression
  refine ⟨random, ?_, hlen, hretry⟩
  rw [hrest, hr₁, hr₂, hr₃, hr₄]
  simp only [List.append_assoc]

theorem isServerHello_of_readHello (h : readHello id body = .ok share) : IsServerHello id body share := by
  obtain ⟨r, h⟩ := map_fst_eq_ok h
  obtain ⟨_, r₁, hfields, h⟩ := Reading.bind_eq_ok h
  obtain ⟨random, hbody, hlen, hretry⟩ := helloFields_eq_ok hfields
  obtain ⟨o, r₂, hexts, h⟩ := Reading.bind_eq_ok h
  obtain ⟨exts, hr₁, hfold⟩ := Reading.extensions_eq_ok hexts
  obtain ⟨_, r₃, hfinish, h⟩ := Reading.bind_eq_ok h
  obtain ⟨rfl, rfl⟩ := Reading.finish_eq_ok hfinish
  obtain ⟨hversion, hshare⟩ := foldlM_helloExtension hfold
  cases htls : o.tls13 with
  | false =>
    rw [htls] at h
    exact absurd h Reading.fail_ne_ok
  | true =>
    cases hsome : o.share with
    | none =>
      rw [htls, hsome] at h
      exact absurd h Reading.fail_ne_ok
    | some share' =>
      rw [htls, hsome] at h
      obtain ⟨rfl, -⟩ := Reading.pure_eq_ok h
      rcases hversion htls with hfalse | hmem
      · cases hfalse
      rcases hshare share' hsome with hfalse | ⟨hlen', hmem'⟩
      · cases hfalse
      refine ⟨random, exts, ?_, hlen, hretry, hmem, hmem', hlen'⟩
      rw [hbody, hr₁, List.append_nil]

/-- An `EncryptedExtensions`, whose ALPN, if it has one, is `http/1.1`. -/
def IsEncryptedExtensions (body : List UInt8) : Prop :=
  ∃ exts : List (ℕ × List UInt8), body = prefixed 2 (exts.flatMap fun x => extension x.1 x.2) ∧
    ∀ data, (ALPN, data) ∈ exts → data = ALPN_HTTP11

theorem isEncryptedExtensions_of_read (h : readEncryptedExtensions body = .ok ()) :
    IsEncryptedExtensions body := by
  obtain ⟨r, h⟩ := map_fst_eq_ok h
  obtain ⟨_, r₁, hexts, h⟩ := Reading.bind_eq_ok h
  obtain ⟨exts, hbody, hfold⟩ := Reading.extensions_eq_ok hexts
  obtain ⟨rfl, -⟩ := Reading.finish_eq_ok h
  refine ⟨exts, by rw [hbody, List.append_nil], ?_⟩
  clear hbody hexts h
  induction exts with
  | nil => simp
  | cons x exts ih =>
    rw [List.foldlM_cons] at hfold
    obtain ⟨u, hx, hfold⟩ := Lists.bind_eq_ok hfold
    intro data hmem
    rcases List.mem_cons.mp hmem with rfl | hmem
    · by_contra hdata
      simp [encryptedExtension, hdata] at hx
    · exact ih hfold data hmem

/-- A `CertificateVerify` of `body` that checks under `key`. -/
def Verifies (c : Crypto) (key : Key) (digest body : List UInt8) : Prop :=
  ∃ scheme sig, body = scheme ++ prefixed 2 sig ∧
    ((∃ k raw, key = .p256 k ∧ scheme = ECDSA_P256_SHA256 ∧ rawSignature sig = some raw ∧
        c.p256Verify k digest raw) ∨
      ∃ k, key = .rsa k ∧ scheme = RSA_PSS_SHA256 ∧ c.verifyPss k digest sig)

theorem verifies_of_check {peer : Option Key} {digest scheme sig : List UInt8}
    (hread : readVerify body = .ok (scheme, sig))
    (hcheck : checkVerify c peer digest scheme sig = .ok true) :
    ∃ key, peer = some key ∧ Verifies c key digest body := by
  have hbody : body = scheme ++ prefixed 2 sig := by
    obtain ⟨r, h⟩ := map_fst_eq_ok hread
    obtain ⟨scheme', r₁, hscheme, h⟩ := Reading.bind_eq_ok h
    obtain ⟨sig', r₂, hsig, h⟩ := Reading.bind_eq_ok h
    obtain ⟨_, r₃, hfinish, h⟩ := Reading.bind_eq_ok h
    obtain ⟨heq, -⟩ := Reading.pure_eq_ok h
    obtain ⟨rfl, rfl⟩ := Prod.mk.inj heq
    obtain ⟨hb, -⟩ := Reading.bytes_eq_ok hscheme
    obtain ⟨hr₁, -⟩ := Reading.vec_eq_ok hsig
    obtain ⟨rfl, -⟩ := Reading.finish_eq_ok hfinish
    rw [hb, hr₁, List.append_nil]
  cases peer with
  | none => cases hcheck
  | some key =>
    refine ⟨key, rfl, scheme, sig, hbody, ?_⟩
    cases key with
    | p256 k =>
      dsimp only [checkVerify] at hcheck
      split_ifs at hcheck with hs
      cases hraw : rawSignature sig with
      | none =>
        rw [hraw] at hcheck
        cases hcheck
      | some raw =>
        rw [hraw] at hcheck
        exact .inl ⟨k, raw, rfl, hs, rfl, Except.ok.inj hcheck⟩
    | rsa k =>
      dsimp only [checkVerify] at hcheck
      split_ifs at hcheck with hs
      exact .inr ⟨k, rfl, hs, Except.ok.inj hcheck⟩

/-- A whole message at the start of the buffer, by its kind and its body. -/
theorem take_eq_handshakeMessage (h4 : ¬rest.length < 4) (h : ¬rest.length < 4 + bodyLength rest) :
    rest.take (4 + bodyLength rest) =
      handshakeMessage (rest.headD 0) ((rest.drop 4).take (bodyLength rest)) := by
  match rest, h4, h with
  | a :: b :: d :: f :: tail, _, h =>
    have hlen : (tail.take (bodyLength (a :: b :: d :: f :: tail))).length =
        bodyLength (a :: b :: d :: f :: tail) := by
      apply List.length_take_of_le
      simp only [List.length_cons] at h
      omega
    have hprefix : bigBytes 3 (bodyLength (a :: b :: d :: f :: tail)) = [b, d, f] :=
      bigBytes_big [b, d, f]
    rw [handshakeMessage, prefixed]
    simp only [List.drop_succ_cons, List.drop_zero, List.headD_cons, hlen, hprefix]
    rw [Nat.add_comm 4]
    rfl
  | [], h4, _ => simp at h4
  | [_], h4, _ => simp at h4
  | [_, _], h4, _ => simp at h4
  | [_, _, _], h4, _ => simp at h4

end Chatlink.Net
