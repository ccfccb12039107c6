import Chatlink.Text.Spans

/-!
# The devices of the gateway

One process holds the linked devices of all salesmen in a map from the printed JID of a
device to its client, and reads the map in whatever order the runtime gives. A request
names the device it wants by its number or by its JID, and is served by the first entry
whose JID contains that text. What the library does with a message is a parameter.
-/
namespace Chatlink.Gateway

/-- A linked device: `Store.ID.String()` and `Store.ID.User`. -/
structure Dispositivo where
  jid : Texto
  user : Texto
  deriving DecidableEq, Repr

structure SendRequest where
  destino : Texto
  text : Texto
  fromJid : Texto
  binary : List UInt8 := []
  filename : Texto := []
  deriving DecidableEq, Repr

/-- A JID to send to. -/
structure Jid where
  user : Texto
  server : Texto
  deriving DecidableEq, Repr

/-- The library: it parses JIDs, uploads media, knows which devices are connected, and
sends. A failure carries its text. -/
structure Red where
  parseJID : Texto → Option Jid
  upload : Dispositivo → SendRequest → Option Texto
  isConnected : Dispositivo → Bool
  send : Dispositivo → Jid → SendRequest → Option Texto

inductive SendResponse where
  | error (text : Texto)
  /-- The message has left from the device. -/
  | success (d : Dispositivo) (jid : Jid)
  deriving DecidableEq, Repr

/-- `registerClient`: the map has one client for each JID. -/
def registerClient (clients : List Dispositivo) (d : Dispositivo) : List Dispositivo :=
  (clients.filter fun e => e.jid ≠ d.jid) ++ [d]

/-- The devices after some registrations. -/
def registrados (regs : List Dispositivo) : List Dispositivo := regs.foldl registerClient []

/-- `getClient`, given the order in which the map is read. -/
def getClient (lectura : List Dispositivo) (jid : Texto) : Option Dispositivo :=
  if jid.isEmpty then none else lectura.find? fun d => Texto.contains d.jid jid

/-- The JID the message goes to. -/
def destino (red : Red) (req : SendRequest) : Jid :=
  let jid := if Texto.contains req.destino ['@'] then (red.parseJID req.destino).getD ⟨[], []⟩ else ⟨[], []⟩
  if jid.user.isEmpty then ⟨req.destino, "s.whatsapp.net"⟩ else jid

def sendMessage (red : Red) (lectura : List Dispositivo) (req : SendRequest) : SendResponse :=
  match getClient lectura req.fromJid with
  | none => .error (("no device for " : Texto) ++ req.fromJid)
  | some client =>
    match if req.binary.isEmpty then none else red.upload client req with
    | some e => .error e
    | none =>
      if !red.isConnected client then .error "device not connected"
      else match red.send client (destino red req) req with
        | some e => .error e
        | none => .success client (destino red req)

/-! ## One identity -/

/-- What the bot can hold for a salesman: the number of his device, or its JID. -/
inductive Remitente where
  | numero (n : Texto)
  | dispositivo (d : Dispositivo)
  deriving DecidableEq, Repr

namespace Remitente

def fromJid : Remitente → Texto
  | numero n => n
  | dispositivo d => d.jid

def number : Remitente → Texto
  | numero n => n
  | dispositivo d => d.user

end Remitente

/-- Whatever the library does and in whatever order the map is read, a message that leaves
does so from a device of the requested number. -/
def OneIdentity (regs : List Dispositivo) (r : Remitente) : Prop :=
  ∀ (red : Red) (lectura : List Dispositivo) (req : SendRequest) (d : Dispositivo) (jid : Jid),
    lectura.Perm (registrados regs) → req.fromJid = r.fromJid →
      sendMessage red lectura req = .success d jid → d.user = r.number

theorem getClient_of_success {red : Red} {lectura : List Dispositivo} {req : SendRequest}
    {d : Dispositivo} {jid : Jid} (h : sendMessage red lectura req = .success d jid) :
    getClient lectura req.fromJid = some d := by
  unfold sendMessage at h
  split at h
  · cases h
  · next client hclient =>
    split at h
    · cases h
    · split at h
      · cases h
      · split at h
        · cases h
        · obtain ⟨rfl, -⟩ := SendResponse.success.inj h
          exact hclient

/-- A library that lets everything through. -/
def redAbierta : Red where
  parseJID _ := none
  upload _ _ := none
  isConnected _ := true
  send _ _ _ := none

theorem sendMessage_redAbierta {lectura : List Dispositivo} {req : SendRequest} {d : Dispositivo}
    (h : getClient lectura req.fromJid = some d) :
    sendMessage redAbierta lectura req = .success d (destino redAbierta req) := by
  rw [sendMessage, h]
  by_cases hb : req.binary.isEmpty <;> simp [hb, redAbierta]

/-- A device of the map can be the one that is read first. -/
theorem getClient_cons {lectura : List Dispositivo} {d : Dispositivo} {jid : Texto} (hj : jid ≠ [])
    (hd : Texto.contains d.jid jid = true) : getClient (d :: lectura) jid = some d := by
  rw [getClient, if_neg (by simpa using hj)]
  exact List.find?_cons_of_pos (p := fun d : Dispositivo => Texto.contains d.jid jid) hd

/-- A message leaves from the requested number in every case exactly when no registered
device of another number has the requested text in its JID. -/
theorem oneIdentity_iff {regs : List Dispositivo} {r : Remitente} :
    OneIdentity regs r ↔ ∀ d ∈ registrados regs, r.fromJid ≠ [] →
      Texto.contains d.jid r.fromJid = true → d.user = r.number := by
  constructor
  · intro h d hd hj hc
    obtain ⟨xs, ys, hsplit⟩ := List.append_of_mem hd
    have hperm : (d :: (xs ++ ys)).Perm (registrados regs) := by
      rw [hsplit]
      exact List.perm_middle.symm
    have hclient : getClient (d :: (xs ++ ys)) r.fromJid = some d := getClient_cons hj hc
    exact h redAbierta _ ⟨[], [], r.fromJid, [], []⟩ d _ hperm rfl (sendMessage_redAbierta hclient)
  · intro h red lectura req d jid hperm hfrom hsent
    have hclient := getClient_of_success hsent
    rw [hfrom, getClient] at hclient
    split at hclient
    · cases hclient
    · next hj =>
      refine h d (hperm.mem_iff.mp (List.mem_of_find?_eq_some hclient)) (by simpa using hj) ?_
      exact List.find?_some (p := fun d : Dispositivo => Texto.contains d.jid r.fromJid) hclient

/-- A Spanish number that stands inside a German one. -/
def dosComerciales : List Dispositivo :=
  [⟨"34600999888:3@s.whatsapp.net", "34600999888"⟩,
    ⟨"4934600999888:7@s.whatsapp.net", "4934600999888"⟩]

/-- When the map is read with the second device first, the reply of the first salesman
leaves from the second one's number. -/
theorem reply_from_other_number : ¬ OneIdentity dosComerciales (.numero "34600999888") := by
  intro h
  have hother := h redAbierta dosComerciales.reverse ⟨"600111222", "apuntado", "34600999888", [], []⟩
    ⟨"4934600999888:7@s.whatsapp.net", "4934600999888"⟩ ⟨"600111222", "s.whatsapp.net"⟩
    (by decide) rfl (by decide)
  revert hother
  decide

end Chatlink.Gateway
