import Chatlink.Net.Certificate

/-!
# What an accepted chain guarantees, and what depends on the anchors' order

A chain is a path when its leaf may serve the host and, up to some place, every certificate is
current and issued by the next one, the last being an anchor or issued by a current one. What
`verifyChain` accepts is a path. The other way the first anchor that issued a certificate
decides before its validity is known: the answer is that of every order of the anchors, and no
path is refused, exactly when no expired anchor issued the place where the walk would end.
-/
namespace Chatlink.Net

section Definitions

variable (c : Crypto) (anchors : List Certificate) (now : ℤ) (cert : Certificate)

/-- The certificate is itself one of the anchors. -/
def IsAnchor : Prop := ∃ a ∈ anchors, a.der = cert.der

/-- A certificate authority among the anchors issued the certificate. -/
def AnchorIssued (a : Certificate) : Prop := a ∈ anchors ∧ a.issues ∧ cert.issuedBy c a

def Trusted : Prop := IsAnchor anchors cert ∨ ∃ a, AnchorIssued c anchors cert a ∧ a.current now

/-- The leaf names the host, may serve TLS and has a supported key. -/
def Serves (chain : List Certificate) (host : String) : Prop :=
  ∃ leaf, chain.head? = some leaf ∧ leaf.namesHost host ∧ leaf.ext.servesTls ∧ leaf.key.isSome

/-- The certificates `0..k` are current, each issued by the next one, and the last of them is
trusted. -/
structure Path (chain : List Certificate) (k : ℕ) : Prop where
  within : k < chain.length
  current : ∀ (i : ℕ) (a : Certificate), i ≤ k → chain[i]? = some a → a.current now
  issued : ∀ (i : ℕ) (a b : Certificate), i < k → chain[i]? = some a → chain[i + 1]? = some b →
    b.issues ∧ a.issuedBy c b
  trusted : ∀ a : Certificate, chain[k]? = some a → Trusted c anchors now a

/-- Where the walk over the chain would end, no expired anchor issued the certificate: the
first certificate that is an anchor or that an anchor issued is an anchor, or only current
anchors issued it. -/
def EndsCurrent (chain : List Certificate) : Prop :=
  ∀ (i : ℕ) (cert : Certificate), chain[i]? = some cert →
    (∀ (j : ℕ) (b : Certificate), j < i → chain[j]? = some b →
      ¬IsAnchor anchors b ∧ ∀ a, ¬AnchorIssued c anchors b a) →
    ¬IsAnchor anchors cert → ∀ a, AnchorIssued c anchors cert a → a.current now

end Definitions

/-! ### Paths, certificate by certificate -/

/-- A path along the structure of the chain. -/
inductive Leads (c : Crypto) (anchors : List Certificate) (now : ℤ) : List Certificate → Prop
  | here {cert rest} : cert.current now → Trusted c anchors now cert →
      Leads c anchors now (cert :: rest)
  | step {cert next rest} : cert.current now → next.issues → cert.issuedBy c next →
      Leads c anchors now (next :: rest) → Leads c anchors now (cert :: next :: rest)

variable {c : Crypto} {anchors anchors' chain rest : List Certificate} {now : ℤ} {host : String}
  {cert next a : Certificate}

theorem Leads.current (h : Leads c anchors now (cert :: rest)) : cert.current now := by
  cases h with
  | here hc => exact hc
  | step hc => exact hc

theorem Leads.exists_path (h : Leads c anchors now chain) : ∃ k, Path c anchors now chain k := by
  induction h with
  | @here cert rest hc ht =>
    refine ⟨0, by simp, ?_, by simp, by simpa using ht⟩
    intro i a hi ha
    obtain rfl : i = 0 := by omega
    simpa [← Option.some.inj ha] using hc
  | @step cert next rest hc hn hs _ ih =>
    obtain ⟨k, hk⟩ := ih
    refine ⟨k + 1, by simpa using hk.within, ?_, ?_, ?_⟩
    · intro i a hi ha
      cases i with
      | zero => simpa [← Option.some.inj ha] using hc
      | succ i => exact hk.current i a (by omega) ha
    · intro i a b hi ha hb
      cases i with
      | zero =>
        obtain rfl := Option.some.inj ha
        obtain rfl := Option.some.inj hb
        exact ⟨hn, hs⟩
      | succ i => exact hk.issued i a b (by omega) ha hb
    · intro a ha
      exact hk.trusted a ha

theorem Path.leads {k : ℕ} (h : Path c anchors now chain k) : Leads c anchors now chain := by
  induction k generalizing chain with
  | zero =>
    cases chain with
    | nil => exact absurd h.within (by simp)
    | cons cert rest => exact .here (h.current 0 cert le_rfl rfl) (h.trusted cert rfl)
  | succ k ih =>
    have hlt := h.within
    match chain, h with
    | [], _ => exact absurd hlt (by simp)
    | [cert], _ => exact absurd hlt (by simp)
    | cert :: next :: rest, h =>
      obtain ⟨hn, hs⟩ := h.issued 0 cert next (by omega) rfl rfl
      refine .step (h.current 0 cert (by omega) rfl) hn hs (ih ⟨by simpa using hlt, ?_, ?_, ?_⟩)
      · intro i a hi ha
        exact h.current (i + 1) a (by omega) ha
      · intro i a b hi ha hb
        exact h.issued (i + 1) a b (by omega) ha hb
      · intro a ha
        exact h.trusted a ha

theorem leads_iff : Leads c anchors now chain ↔ ∃ k, Path c anchors now chain k :=
  ⟨Leads.exists_path, fun ⟨_, h⟩ => h.leads⟩

/-! ### One link -/

theorem any_der_iff : (anchors.any fun a => a.der == cert.der) = true ↔ IsAnchor anchors cert := by
  simp [IsAnchor]

theorem anchored_of_isAnchor (h : IsAnchor anchors cert) :
    anchored c anchors now cert = some (.ok ()) := by
  rw [anchored, if_pos (any_der_iff.mpr h)]

theorem find_issuer_eq_some
    (h : (anchors.find? fun a => a.issues && cert.issuedBy c a) = some a) :
    AnchorIssued c anchors cert a := by
  have hp := List.find?_some h
  rw [Bool.and_eq_true] at hp
  exact ⟨List.mem_of_find?_eq_some h, hp.1, hp.2⟩

theorem find_issuer_eq_none :
    (anchors.find? fun a => a.issues && cert.issuedBy c a) = none ↔
      ∀ a, ¬AnchorIssued c anchors cert a := by
  simp [List.find?_eq_none, AnchorIssued]

/-- The verdict of the anchors on a certificate that is none of them. -/
theorem anchored_eq (h : ¬IsAnchor anchors cert) :
    anchored c anchors now cert =
      (anchors.find? fun a => a.issues && cert.issuedBy c a).map fun anchor =>
        if anchor.current now then .ok () else .error .expired := by
  rw [anchored, if_neg (fun h' => h (any_der_iff.mp h'))]

theorem anchored_eq_none :
    anchored c anchors now cert = none ↔
      ¬IsAnchor anchors cert ∧ ∀ a, ¬AnchorIssued c anchors cert a := by
  by_cases h : IsAnchor anchors cert
  · simp [anchored_of_isAnchor h, h]
  · rw [anchored_eq h, Option.map_eq_none_iff, find_issuer_eq_none]
    simp [h]

theorem trusted_of_anchored (h : anchored c anchors now cert = some (.ok ())) :
    Trusted c anchors now cert := by
  by_cases hi : IsAnchor anchors cert
  · exact .inl hi
  · rw [anchored_eq hi, Option.map_eq_some_iff] at h
    obtain ⟨a, ha, hok⟩ := h
    split_ifs at hok with hcur
    exact .inr ⟨a, find_issuer_eq_some ha, hcur⟩

/-- A certificate that no anchor is or issued goes on to the next one. -/
theorem link_eq (hc : cert.current now) (h : anchored c anchors now cert = none)
    (hn : next.issues) (hs : cert.issuedBy c next) :
    link c anchors now cert (some next) = none := by
  simp [link, hc, h, hn, hs]

theorem link_of_anchored {verdict : Except Rejected Unit} (hc : cert.current now)
    (h : anchored c anchors now cert = some verdict) (next : Option Certificate) :
    link c anchors now cert next = some verdict := by
  simp [link, hc, h]

theorem link_eq_none {next : Option Certificate} (h : link c anchors now cert next = none) :
    cert.current now ∧ anchored c anchors now cert = none ∧
      ∃ b, next = some b ∧ b.issues ∧ cert.issuedBy c b := by
  unfold link at h
  split_ifs at h with hc
  split at h
  · cases h
  · rename_i ha
    refine ⟨by simpa using hc, ha, ?_⟩
    cases next with
    | none => cases h
    | some b =>
      dsimp only at h
      split_ifs at h with hb
      exact ⟨b, rfl, by simpa using hb⟩

theorem link_eq_ok {next : Option Certificate} (h : link c anchors now cert next = some (.ok ())) :
    cert.current now ∧ anchored c anchors now cert = some (.ok ()) := by
  unfold link at h
  split_ifs at h with hc
  · split at h
    · rename_i verdict ha
      exact ⟨hc, by rw [ha, h]⟩
    · cases next with
      | none => simp at h
      | some b =>
        dsimp only at h
        split_ifs at h <;> simp at h
  · simp at h

/-! ### What is accepted -/

theorem leads_of_links (h : links c anchors now chain = .ok ()) : Leads c anchors now chain := by
  induction chain with
  | nil => cases h
  | cons cert rest ih =>
    unfold links at h
    split at h
    · rename_i verdict hl
      subst h
      obtain ⟨hc, ha⟩ := link_eq_ok hl
      exact .here hc (trusted_of_anchored ha)
    · rename_i hl
      obtain ⟨hc, -, b, hb, hn, hs⟩ := link_eq_none hl
      obtain ⟨tail, rfl⟩ := List.head?_eq_some_iff.mp hb
      exact .step hc hn hs (ih h)

theorem serves_cons {leaf : Certificate} :
    Serves (leaf :: rest) host ↔ leaf.namesHost host ∧ leaf.ext.servesTls ∧ leaf.key.isSome := by
  simp [Serves]

theorem verifyChain_eq_links (h : Serves chain host) :
    verifyChain c anchors now chain host = links c anchors now chain := by
  cases chain with
  | nil => simp [Serves] at h
  | cons leaf rest =>
    obtain ⟨hn, ht, hk⟩ := serves_cons.mp h
    have hk' : leaf.key.isNone = false := by simpa using hk
    simp [verifyChain, hn, ht, hk']

/-- A chain whose leaf does not serve the host is refused whatever the anchors are. -/
theorem verifyChain_of_not_serves (h : ¬Serves chain host) :
    verifyChain c anchors now chain host ≠ .ok () ∧
      verifyChain c anchors now chain host = verifyChain c anchors' now chain host := by
  cases chain with
  | nil => simp [verifyChain]
  | cons leaf rest =>
    rw [serves_cons] at h
    unfold verifyChain
    dsimp only
    split_ifs with hk hn
    · simp
    · simp
    · refine absurd ⟨?_, ?_, ?_⟩ h
      · simpa using hn
      · simp only [Bool.or_eq_true, Bool.not_eq_true', not_or] at hk
        simpa using hk.2
      · simp only [Bool.or_eq_true, not_or] at hk
        simpa [Option.isSome_iff_ne_none] using hk.1

theorem serves_of_verifyChain (h : verifyChain c anchors now chain host = .ok ()) : Serves chain host := by
  by_contra hn
  have hrefused : verifyChain c anchors now chain host ≠ .ok () ∧
      verifyChain c anchors now chain host = verifyChain c anchors now chain host :=
    verifyChain_of_not_serves hn
  exact hrefused.1 h

theorem verifyChain_sound (h : verifyChain c anchors now chain host = .ok ()) :
    Serves chain host ∧ ∃ k, Path c anchors now chain k := by
  have hs := serves_of_verifyChain h
  rw [verifyChain_eq_links hs] at h
  exact ⟨hs, (leads_of_links h).exists_path⟩

/-! ### The order of the anchors -/

theorem isAnchor_perm (h : anchors'.Perm anchors) : IsAnchor anchors' cert ↔ IsAnchor anchors cert := by
  simp [IsAnchor, h.mem_iff]

theorem anchorIssued_perm (h : anchors'.Perm anchors) :
    AnchorIssued c anchors' cert a ↔ AnchorIssued c anchors cert a := by
  simp [AnchorIssued, h.mem_iff]

theorem endsCurrent_perm (h : anchors'.Perm anchors) :
    EndsCurrent c anchors' now chain ↔ EndsCurrent c anchors now chain := by
  simp only [EndsCurrent, isAnchor_perm h, anchorIssued_perm h]

theorem trusted_perm (h : anchors'.Perm anchors) :
    Trusted c anchors' now cert ↔ Trusted c anchors now cert := by
  simp only [Trusted, isAnchor_perm h, anchorIssued_perm h]

theorem Leads.perm (h : anchors'.Perm anchors) (hl : Leads c anchors now chain) :
    Leads c anchors' now chain := by
  induction hl with
  | here hc ht => exact .here hc ((trusted_perm h).mpr ht)
  | step hc hn hs _ ih => exact .step hc hn hs ih

theorem EndsCurrent.head (h : EndsCurrent c anchors now (cert :: rest))
    (hi : ¬IsAnchor anchors cert) (ha : AnchorIssued c anchors cert a) : a.current now := by
  refine h 0 cert rfl ?_ hi a ha
  intro j b hj
  omega

theorem EndsCurrent.tail (h : EndsCurrent c anchors now (cert :: rest))
    (hn : anchored c anchors now cert = none) : EndsCurrent c anchors now rest := by
  intro i b hb hbefore
  refine h (i + 1) b hb ?_
  intro j d hj hd
  cases j with
  | zero =>
    obtain rfl := Option.some.inj hd
    exact anchored_eq_none.mp hn
  | succ j => exact hbefore j d (by omega) hd

/-- Where a path exists and only current anchors end it, it is found. -/
theorem links_of_leads (hl : Leads c anchors now chain) (he : EndsCurrent c anchors now chain) :
    links c anchors now chain = .ok () := by
  induction chain with
  | nil => cases hl
  | cons cert rest ih =>
    have hc := hl.current
    by_cases hi : IsAnchor anchors cert
    · rw [links, link_of_anchored hc (anchored_of_isAnchor hi)]
    · cases hf : anchors.find? fun a => a.issues && cert.issuedBy c a with
      | some a =>
        have hcur : a.current now := he.head hi (find_issuer_eq_some hf)
        have ha : anchored c anchors now cert = some (.ok ()) := by
          rw [anchored_eq hi, hf, Option.map_some, if_pos hcur]
        rw [links, link_of_anchored hc ha]
      | none =>
        have hnone : anchored c anchors now cert = none :=
          anchored_eq_none.mpr ⟨hi, find_issuer_eq_none.mp hf⟩
        cases hl with
        | here _ ht =>
          rcases ht with ht | ⟨a, ha, -⟩
          · exact absurd ht hi
          · exact absurd ha (find_issuer_eq_none.mp hf a)
        | @step _ next tail _ hn hs hrest =>
          rw [links, List.head?_cons, link_eq hc hnone hn hs]
          exact ih hrest (he.tail hnone)

/-- Where there is no path the verdict is an error that no order of the anchors changes. -/
theorem anchored_perm_of_not_trusted (h : anchors'.Perm anchors)
    (ht : ¬Trusted c anchors now cert) :
    anchored c anchors' now cert = anchored c anchors now cert := by
  have hi : ¬IsAnchor anchors cert := fun hi => ht (.inl hi)
  have hexp (l : List Certificate) (hl : l.Perm anchors) (b : Certificate)
      (hb : AnchorIssued c l cert b) : ¬b.current now := by
    intro hcur
    exact ht (.inr ⟨b, (anchorIssued_perm hl).mp hb, hcur⟩)
  rw [anchored_eq hi, anchored_eq (mt (isAnchor_perm h).mp hi)]
  cases hf : anchors.find? fun a => a.issues && cert.issuedBy c a with
  | none =>
    have hnone := find_issuer_eq_none.mp hf
    simp only [← anchorIssued_perm h] at hnone
    rw [find_issuer_eq_none.mpr hnone]
  | some a =>
    cases hf' : anchors'.find? fun a => a.issues && cert.issuedBy c a with
    | none =>
      have hnone := find_issuer_eq_none.mp hf'
      exact absurd ((anchorIssued_perm h).mpr (find_issuer_eq_some hf)) (hnone a)
    | some a' =>
      have ha := hexp anchors (List.Perm.refl _) a (find_issuer_eq_some hf)
      have ha' := hexp anchors' h a' (find_issuer_eq_some hf')
      simp [ha, ha']

theorem links_perm_of_not_leads (h : anchors'.Perm anchors) (hl : ¬Leads c anchors now chain) :
    links c anchors' now chain = links c anchors now chain := by
  induction chain with
  | nil => rfl
  | cons cert rest ih =>
    have hlink : link c anchors' now cert rest.head? = link c anchors now cert rest.head? := by
      by_cases hc : cert.current now
      · have ht : ¬Trusted c anchors now cert := fun ht => hl (.here hc ht)
        simp only [link, anchored_perm_of_not_trusted h ht]
      · simp [link, hc]
    rw [links, links, hlink]
    cases hv : link c anchors now cert rest.head? with
    | some verdict => rfl
    | none =>
      obtain ⟨hc, -, b, hb, hn, hs⟩ := link_eq_none hv
      obtain ⟨tail, rfl⟩ := List.head?_eq_some_iff.mp hb
      exact ih fun hrest => hl (.step hc hn hs hrest)

/-- An expired anchor put first ends the walk at the first certificate it issued. -/
theorem links_expired_first (hl : Leads c anchors now chain)
    (hmem : ∀ b, b ∈ anchors' ↔ b ∈ anchors) (ha : ¬a.current now)
    {i : ℕ} (hcert : chain[i]? = some cert)
    (hbefore : ∀ (j : ℕ) (b : Certificate), j < i → chain[j]? = some b →
      ¬IsAnchor anchors b ∧ ∀ a, ¬AnchorIssued c anchors b a)
    (hi : ¬IsAnchor anchors cert) (hissued : AnchorIssued c anchors cert a)
    (hhead : anchors'.head? = some a) :
    links c anchors' now chain = .error .expired := by
  induction chain generalizing i with
  | nil => cases hl
  | cons first rest ih =>
    have hc := hl.current
    cases i with
    | zero =>
      obtain rfl := Option.some.inj hcert
      obtain ⟨tail, rfl⟩ := List.head?_eq_some_iff.mp hhead
      have hi' : ¬IsAnchor (a :: tail) first := by
        rintro ⟨b, hb, hder⟩
        exact hi ⟨b, (hmem b).mp hb, hder⟩
      have hv : anchored c (a :: tail) now first = some (.error .expired) := by
        rw [anchored_eq hi', List.find?_cons_of_pos (by simp [hissued.2.1, hissued.2.2]),
          Option.map_some, if_neg ha]
      rw [links, link_of_anchored hc hv]
    | succ i =>
      obtain ⟨hfirst, hnot⟩ := hbefore 0 first (by omega) rfl
      have hnone : anchored c anchors' now first = none := by
        refine anchored_eq_none.mpr ⟨?_, ?_⟩
        · rintro ⟨b, hb, hder⟩
          exact hfirst ⟨b, (hmem b).mp hb, hder⟩
        · rintro b ⟨hb, hrest⟩
          exact hnot b ⟨(hmem b).mp hb, hrest⟩
      cases hl with
      | here _ ht =>
        rcases ht with ht | ⟨b, hb, -⟩
        · exact absurd ht hfirst
        · exact absurd hb (hnot b)
      | @step _ next tail _ hn hs hrest =>
        rw [links, List.head?_cons, link_eq hc hnone hn hs]
        refine ih hrest hcert ?_
        intro j b hj hb
        exact hbefore (j + 1) b (by omega) hb

/-- The chain's verdict is that of every order of the anchors, and every path is accepted,
exactly when no expired anchor issued the certificate at which the walk along a path ends. -/
theorem verifyChain_order_iff :
    ((∀ anchors' : List Certificate, anchors'.Perm anchors →
        verifyChain c anchors' now chain host = verifyChain c anchors now chain host) ∧
      (Serves chain host → (∃ k, Path c anchors now chain k) →
        verifyChain c anchors now chain host = .ok ())) ↔
      (Serves chain host → (∃ k, Path c anchors now chain k) → EndsCurrent c anchors now chain) := by
  constructor
  · rintro ⟨horder, hcomplete⟩ hs hpath i cert hcert hbefore hi a hissued
    by_contra ha
    have hl := leads_iff.mpr hpath
    obtain ⟨l₁, l₂, rfl⟩ := List.append_of_mem hissued.1
    have hperm : (a :: (l₁ ++ l₂)).Perm (l₁ ++ a :: l₂) := List.perm_middle.symm
    have hexp : links c (a :: (l₁ ++ l₂)) now chain = .error .expired :=
      links_expired_first hl (fun b => hperm.mem_iff) ha hcert hbefore hi hissued rfl
    have hok := (horder _ hperm).trans (hcomplete hs hpath)
    rw [verifyChain_eq_links hs, hexp] at hok
    cases hok
  · intro hcond
    by_cases hs : Serves chain host
    · by_cases hl : Leads c anchors now chain
      · have he := hcond hs hl.exists_path
        have hok (l : List Certificate) (h : l.Perm anchors) :
            verifyChain c l now chain host = .ok () := by
          rw [verifyChain_eq_links hs]
          exact links_of_leads (hl.perm h) ((endsCurrent_perm h).mpr he)
        exact ⟨fun l h => (hok l h).trans (hok anchors (.refl _)).symm, fun _ _ => hok anchors (.refl _)⟩
      · refine ⟨?_, fun _ hp => absurd (leads_iff.mpr hp) hl⟩
        intro l h
        rw [verifyChain_eq_links hs, verifyChain_eq_links hs, links_perm_of_not_leads h hl]
    · refine ⟨?_, fun h => absurd h hs⟩
      intro l _
      exact (verifyChain_of_not_serves hs).2

/-! ### A renewed root -/

/-- An element of at most 255 bytes around its content. -/
def element (tag : UInt8) (content : List UInt8) : List UInt8 :=
  if content.length < 128 then tag :: content.length.toUInt8 :: content
  else tag :: 0x81 :: content.length.toUInt8 :: content

namespace Renewed

/-- The base point of the curve: the public key of the private key 1. -/
def key : P256Key :=
  ⟨0x6b17d1f2e12c4247f8bce6e563a440f277037d812deb33a0f4a13945d898c296,
    0x4fe342e2fe1a7f9b8ee7eb4a7c0f9e162bce33576b315ececbb6406837bf51f5⟩

def point : List UInt8 := 4 :: (bigBytes 32 key.x ++ bigBytes 32 key.y)

/-- The digest of the leaf's signed part, and the signature that the key 1 makes of it. -/
def digest : List UInt8 :=
  bigBytes 32 0xd5ed0da31baf72ffc749879a4bfdf04d9f7f8b7d825817d3ad0453659674d4cb

def s : ℕ := 0x4104df96fcdbb546c0066e7fafa23140599c0e51092bacefadebc1e872aa7210

/-- A signature made with the nonce 1. -/
def signature (s : ℕ) : List UInt8 := bigBytes 32 key.x ++ bigBytes 32 s

def raw : List UInt8 := signature s

/-- The primitives, on the one key, digest and signature that are met here. -/
def crypto : Crypto where
  sha256 _ := digest
  hmac _ _ := []
  gcmSeal _ _ _ m := m
  gcmOpen _ _ _ _ := none
  x25519 _ p := p
  x25519Public k := k
  fromSec1 b := if b = point then some key else none
  p256Verify k d sig := k = key && d == digest && sig == raw
  verifyPkcs1 _ _ _ := false
  verifyPss _ _ _ := false

def commonName (label : UInt8) : List UInt8 :=
  element 0x30 (element 0x31 (element 0x30 (element 6 [0x55, 4, 3] ++ element 0x0c [label])))

def algorithm : List UInt8 := element 0x30 (element 6 OID_ECDSA_SHA256)

/-- A `UTCTime` at the start of the year `20yy`. -/
def time (yy : List UInt8) : List UInt8 :=
  element 0x17 (yy ++ [0x30, 0x31, 0x30, 0x31] ++ List.replicate 6 0x30 ++ [0x5a])

/-- The signed part of a certificate. -/
def tbs (issuer serial subject : UInt8) (first last ext : List UInt8) : List UInt8 :=
  element 0x30 (element 0xa0 (element 2 [2]) ++ element 2 [serial] ++ algorithm ++
    commonName issuer ++ element 0x30 (time first ++ time last) ++ commonName subject ++
    element 0x30 (element 0x30 (element 6 OID_EC_PUBLIC_KEY ++ element 6 OID_P256) ++
      element 3 (0 :: point)) ++
    element 0xa3 (element 0x30 (element 0x30 ext)))

def whole (tbs : List UInt8) (s : ℕ) : List UInt8 :=
  let der := tbs ++ algorithm ++ element 3 (0 :: element 0x30
    (element 2 (bigBytes 32 key.x) ++ element 2 (bigBytes 32 s)))
  [0x30, 0x82] ++ bigBytes 2 der.length ++ der

/-- What the extension of an authority and that of a server's names look like. -/
def authority : List UInt8 :=
  element 6 OID_BASIC_CONSTRAINTS ++ element 1 [0xff] ++ element 4 (element 0x30 (element 1 [0xff]))

def hubTest : List UInt8 :=
  element 6 OID_ALT_NAME ++ element 4 (element 0x30 (element 0x82 "hub.test".toUTF8.toList))

def certificate (issuer serial subject : UInt8) (first last : List UInt8) (from_ until_ : ℤ)
    (s : ℕ) (block : List UInt8) (ext : Extensions) : Certificate where
  der := whole (tbs issuer serial subject first last block) s
  tbs := tbs issuer serial subject first last block
  issuer := commonName issuer
  subject := commonName subject
  notBefore := from_
  notAfter := until_
  key := some (.p256 key)
  signature := some (.ecdsa (signature s))
  ext := ext

/-- The root until 2010, the root renewed until 2040 under the same name and key, and a server
certificate of 2020 to 2030 that they issued. -/
def old : Certificate :=
  certificate 0x52 1 0x52 [0x30, 0x30] [0x31, 0x30] 946684800 1262304000 s authority { ca := true }

def renewed : Certificate :=
  certificate 0x52 2 0x52 [0x30, 0x30] [0x34, 0x30] 946684800 2208988800 s authority { ca := true }

def leaf : Certificate :=
  certificate 0x52 3 0x4c [0x32, 0x30] [0x33, 0x30] 1577836800 1893456000 s hubTest
    { names := [.dns "hub.test"] }

/-- 2027-01-01. -/
def newYear : ℤ := 1798761600

/-! A server certificate behind an authority that the root issued, with their digests and
signatures. -/

def middleDigest : List UInt8 :=
  bigBytes 32 0x7866a873c73729ec2556cbb20b78e79572fc8945a1b4e0a1a527938bc1454e4a

def middle : Certificate :=
  certificate 0x52 4 0x49 [0x32, 0x30] [0x33, 0x30] 1577836800 1893456000
    0xe37e7a66a8636c341e13b2976f1d2887ea0006c6cfa0144299c8ccd199de10e0 authority { ca := true }

def serverDigest : List UInt8 :=
  bigBytes 32 0xac970b4e363882c1d46f03a7e0acfbda3d5ef9d63b79d95dc967fc1b9cc4b147

def server : Certificate :=
  certificate 0x49 5 0x4c [0x32, 0x30] [0x33, 0x30] 1577836800 1893456000
    0x17aedd421764c508cd2bea8d44513cccf77b7ca9c24d6e79ca4f6a9e78fa4e8c hubTest
    { names := [.dns "hub.test"] }

/-- The primitives on these two. -/
def signed : Crypto :=
  { crypto with
    sha256 := fun m => if m = middle.tbs then middleDigest else if m = server.tbs then serverDigest else []
    p256Verify := fun k d sig => k = key &&
      (d == middleDigest && middle.signature == some (.ecdsa sig) ||
        d == serverDigest && server.signature == some (.ecdsa sig)) }

end Renewed

section

open Renewed

/-- The server is issued by an authority that is no anchor, and this one by the root. -/
theorem verifyChain_sound_hub :
    verifyChain signed [renewed, old] newYear [server, middle] "hub.test" = .ok () ∧
      ¬Trusted signed [renewed, old] newYear server ∧
      Serves [server, middle] "hub.test" ∧ ∃ k, Path signed [renewed, old] newYear [server, middle] k := by
  have h : verifyChain signed [renewed, old] newYear [server, middle] "hub.test" = .ok () := by
    decide +kernel
  have hfar : ¬Trusted signed [renewed, old] newYear server := by
    rw [Trusted, IsAnchor]
    simp only [AnchorIssued, List.mem_cons, List.not_mem_nil, or_false]
    rintro (⟨a, rfl | rfl, ha⟩ | ⟨a, ⟨rfl | rfl, -, ha⟩, -⟩) <;> revert ha <;> decide +kernel
  exact ⟨h, hfar, verifyChain_sound h⟩

/-- The expired root before its renewal refuses the chain that the other order accepts. -/
theorem verifyChain_renewed_root :
    [old, renewed].Perm [renewed, old] ∧ Serves [leaf] "hub.test" ∧
      (∃ k, Path crypto [old, renewed] newYear [leaf] k) ∧
      verifyChain crypto [renewed, old] newYear [leaf] "hub.test" = .ok () ∧
      verifyChain crypto [old, renewed] newYear [leaf] "hub.test" = .error .expired := by
  have hserves : Serves [leaf] "hub.test" := serves_cons.mpr (by decide)
  have hissued : AnchorIssued crypto [old, renewed] leaf renewed :=
    ⟨by simp, by decide, by decide⟩
  have hleads : Leads crypto [old, renewed] newYear [leaf] :=
    .here (by decide) (.inr ⟨renewed, hissued, by decide⟩)
  exact ⟨.swap _ _ _, hserves, hleads.exists_path, by decide +kernel, by decide +kernel⟩

end

end Chatlink.Net
