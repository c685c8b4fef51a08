import UniqueFreshman.CipherProofs
import UniqueFreshman.WireFormatProofs

/-! # The proxy — the key and the request on their way to the remote side

    The local side has read a SOCKS request from its client.  After the password
    it sends the key, one encrypted byte at a time, and then the request,
    encrypted, in the fields SOCKS has.  The remote side reads the key into a
    table, builds its own encryption and decryption from it, and reads the
    fields one by one; the padding is not decrypted.

    `sendRequest` is the block of `send` calls.  The code reaches it only for
    `CONNECT`: for another command the variable `remote` is not set, and the
    first `send` raises an exception. -/

namespace Proxy

open Cipher WireFormat

/-- `SOCKS_VERSION`. -/
def socksVersion : UInt8 := 5

/-- The local variables `address` and `domain_length`; with another `atyp` than `1` or `3`
    they are not set. -/
inductive Address where
  | text (s : String)
  | domain (length : UInt8) (bytes : Bytes)
  | unset

/-- A request as the local side has parsed it. -/
structure Request where
  cmd : UInt8
  atyp : UInt8
  address : Address
  port : UInt16

def readAddress (atyp : UInt8) : Reader Address :=
  if atyp = 1 then do
    let s ← lift (inetNtoa (← recv 4))
    pure (.text s)
  else if atyp = 3 then do
    let length ← lift (unpackB (← recv 1))
    let bytes ← recv length.toNat
    pure (.domain length bytes)
  else pure .unset

/-- The request in `SocksProxyLocal.handle`. -/
def readRequest : Reader Request := do
  match ← recv 4 with
  | [ver, cmd, _, atyp] =>
      if ver ≠ socksVersion then lift none
      else do
        let address ← readAddress atyp
        let port ← lift (unpackH (← recv 2))
        pure ⟨cmd, atyp, address, port⟩
  | _ => lift none

/-- The key, byte by byte. -/
def sendKey (encrypt : Bytes → Bytes) : Bytes := allBytes.flatMap fun i => encrypt [i]

def sendAddress (encrypt : Bytes → Bytes) (atyp : UInt8) (address : Address) : Option Bytes :=
  if atyp = 1 then
    match address with
    | .text s => (inetAton s).map encrypt
    | _ => none
  else if atyp = 3 then
    match address with
    | .domain length bytes => some (encrypt [length] ++ encrypt bytes)
    | _ => none
  else some []

/-- What the local side sends after the password. -/
def sendRequest (encrypt : Bytes → Bytes) (req : Request) : Option Bytes := do
  let address ← sendAddress encrypt req.atyp req.address
  some (sendKey encrypt ++ encrypt [socksVersion, req.cmd, 0, req.atyp] ++ address ++
    encrypt (packH req.port))

/-- What the remote side has after the request. -/
structure Forwarded where
  encrypt : Bytes → Bytes
  decrypt : Bytes → Bytes
  ver : UInt8
  cmd : UInt8
  atyp : UInt8
  address : Option String
  port : UInt16

/-- The remote side's `encrypt`, over a list of byte strings. -/
def remoteEncrypt (encryption : List Bytes) (data : Bytes) : Bytes :=
  data.flatMap fun b => encryption.getD b.toNat []

def readByte (decrypt : Bytes → Bytes) : Reader UInt8 := do
  lift (unpackB (decrypt (← recv 1)))

def readRemoteAddress (decrypt : Bytes → Bytes) (atyp : UInt8) : Reader (Option String) :=
  if atyp = 1 then do
    let s ← lift (inetNtoa (decrypt (← recv 4)))
    pure (some s)
  else if atyp = 3 then do
    let length ← readByte decrypt
    let name ← lift (decodeUtf8 (decrypt (← recv length.toNat)))
    pure (some name)
  else pure none

/-- The key and the request in `SocksProxyRemote.handle`. -/
def readForwarded : Reader Forwarded := do
  let encryption ← allBytes.mapM fun _ => recv 1
  let encrypt := remoteEncrypt encryption
  let decrypt ← lift (genDecryptor encrypt)
  let ver ← readByte decrypt
  let cmd ← readByte decrypt
  let _padding ← recv 1
  let atyp ← readByte decrypt
  if ver ≠ socksVersion then lift none
  else do
    let address ← readRemoteAddress decrypt atyp
    let port ← lift (unpackH (decrypt (← recv 2)))
    pure ⟨encrypt, decrypt, ver, cmd, atyp, address, port⟩

/-! ## What the remote side reads back -/

variable (key : KeyTable)

/-- Encryption keeps the length. -/
theorem length_encrypt (data : Bytes) : (key.encrypt data).length = data.length :=
  List.length_map _

/-- **THE KEY ARRIVES**: the remote side's encryption is the local one. -/
theorem remoteEncrypt_eq :
    remoteEncrypt (allBytes.map fun i => key.encrypt [i]) = key.encrypt := by
  ext1 data
  have hentry (b : UInt8) : (allBytes.map fun i => key.encrypt [i]).getD b.toNat [] =
      [look key.password b] := by
    have hb : allBytes[b.toNat]? = some b := by
      rw [allBytes, List.getElem?_map, List.getElem?_range b.toNat_lt, Option.map_some,
        UInt8.ofNat_toNat]
    rw [List.getD_eq_getElem?_getD, List.getElem?_map, hb, Option.map_some, Option.getD_some]
    rfl
  rw [remoteEncrypt]
  simp only [hentry]
  exact List.flatMap_pure_eq_map (look key.password) data

/-- The key is sent and read byte by byte. -/
theorem reads_key :
    Reads (allBytes.mapM fun _ => recv 1) (sendKey key.encrypt)
      (allBytes.map fun i => key.encrypt [i]) :=
  .mapM allBytes fun i _ => .recv (length_encrypt key [i])

/-- A byte that was encrypted is read back. -/
theorem reads_byte (b : UInt8) : Reads (readByte key.decrypt) (key.encrypt [b]) b := by
  have hbyte : unpackB (key.decrypt (key.encrypt [b])) = some b := by
    rw [key.decrypt_encrypt, unpackB]
  have hrecv := Reads.recv (length_encrypt key [b])
  rw [← List.append_nil (key.encrypt [b])]
  exact hrecv.bind (.lift hbyte)

/-- The address the local side means, as text. -/
def Address.name : Address → Option String
  | .text s => some s
  | .domain _ bytes => decodeUtf8 bytes
  | .unset => none

/-- What the local side has read: an address in dotted form, or a domain of the length it
    was announced with. -/
def WellRead (atyp : UInt8) : Address → Prop
  | .text s => atyp = 1 ∧ ∃ bytes, inetNtoa bytes = some s
  | .domain length bytes => atyp = 3 ∧ bytes.length = length.toNat
  | .unset => True

theorem readAddress_wellRead {atyp : UInt8} {address : Address} {s s' : Bytes}
    (h : readAddress atyp s = some (address, s')) : WellRead atyp address := by
  rw [readAddress] at h
  split at h
  · next hatyp =>
      obtain ⟨bytes, t, -, h⟩ := bind_eq_some.mp h
      obtain ⟨text, t', htext, h⟩ := bind_eq_some.mp h
      obtain ⟨rfl, -⟩ := Prod.mk.inj (Option.some.inj h)
      exact ⟨hatyp, bytes, lift_eq_some htext⟩
  · split at h
    · next hatyp =>
        obtain ⟨one, t, -, h⟩ := bind_eq_some.mp h
        obtain ⟨length, t', -, h⟩ := bind_eq_some.mp h
        obtain ⟨bytes, t'', hbytes, h⟩ := bind_eq_some.mp h
        obtain ⟨rfl, -⟩ := Prod.mk.inj (Option.some.inj h)
        exact ⟨hatyp, recv_eq_some hbytes⟩
    · obtain ⟨rfl, -⟩ := Prod.mk.inj (Option.some.inj h)
      trivial

/-- What the local side has read has the form that its type of address says. -/
theorem readRequest_wellRead {req : Request} {s s' : Bytes}
    (h : readRequest s = some (req, s')) : WellRead req.atyp req.address := by
  obtain ⟨header, t, -, h⟩ := bind_eq_some.mp h
  match header, h with
  | [ver, cmd, padding, atyp], h =>
      by_cases hver : ver ≠ socksVersion
      · simp only [if_pos hver] at h
        exact nomatch h
      · simp only [if_neg hver] at h
        obtain ⟨address, t₁, haddress, h⟩ := bind_eq_some.mp h
        obtain ⟨two, t₂, -, h⟩ := bind_eq_some.mp h
        obtain ⟨port, t₃, -, h⟩ := bind_eq_some.mp h
        obtain ⟨rfl, -⟩ := Prod.mk.inj (Option.some.inj h)
        exact readAddress_wellRead haddress

theorem inetNtoa_length {bytes : Bytes} {s : String} (h : inetNtoa bytes = some s) :
    bytes.length = 4 := by
  match bytes, h with
  | [a, b, c, d], _ => rfl

/-- **THE ADDRESS ARRIVES.** -/
theorem reads_address {atyp : UInt8} {address : Address} {name : String}
    (hread : WellRead atyp address) (hname : address.name = some name) :
    ∃ sent, sendAddress key.encrypt atyp address = some sent ∧
      Reads (readRemoteAddress key.decrypt atyp) sent (some name) := by
  cases address with
  | text s =>
      obtain ⟨rfl, bytes, hbytes⟩ := hread
      obtain rfl := Option.some.inj hname
      refine ⟨key.encrypt bytes, ?_, ?_⟩
      · rw [sendAddress, if_pos rfl, inetAton_inetNtoa hbytes, Option.map_some]
      · have hrecv := Reads.recv ((length_encrypt key bytes).trans (inetNtoa_length hbytes))
        have htext : inetNtoa (key.decrypt (key.encrypt bytes)) = some s := by
          rw [key.decrypt_encrypt, hbytes]
        rw [readRemoteAddress, if_pos rfl, ← List.append_nil (key.encrypt bytes)]
        exact hrecv.bind (.bind (.lift htext) (.pure (some s)))
  | domain length bytes =>
      obtain ⟨rfl, hlength⟩ := hread
      refine ⟨key.encrypt [length] ++ key.encrypt bytes, rfl, ?_⟩
      have hrecv := Reads.recv ((length_encrypt key bytes).trans hlength)
      have htext : decodeUtf8 (key.decrypt (key.encrypt bytes)) = some name := by
        rw [key.decrypt_encrypt]
        exact hname
      rw [readRemoteAddress, if_neg (by decide), if_pos rfl,
        ← List.append_nil (key.encrypt bytes)]
      exact (reads_byte key length).bind (hrecv.bind (.bind (.lift htext) (.pure (some name))))
  | unset => exact nomatch hname

variable {key}

/-- The header of a request is read byte by byte. -/
theorem reads_header {α : Type} {f : UInt8 → UInt8 → UInt8 → Reader α} {bytes : Bytes} {x : α}
    (cmd atyp : UInt8) (h : Reads (f socksVersion cmd atyp) bytes x) :
    Reads (do
      let ver ← readByte key.decrypt
      let cmd ← readByte key.decrypt
      let _padding ← recv 1
      let atyp ← readByte key.decrypt
      f ver cmd atyp) (key.encrypt [socksVersion, cmd, 0, atyp] ++ bytes) x := by
  have hbytes : key.encrypt [socksVersion, cmd, 0, atyp] ++ bytes =
      key.encrypt [socksVersion] ++ (key.encrypt [cmd] ++ (key.encrypt [0] ++
        (key.encrypt [atyp] ++ bytes))) := rfl
  rw [hbytes]
  refine (reads_byte key _).bind ((reads_byte key _).bind ?_)
  exact (Reads.recv (length_encrypt key [0])).bind ((reads_byte key _).bind h)

/-- What the local side sends for an address it has read arrives, behind the key. -/
theorem reads_forwarded {req : Request} {name : String} (hread : WellRead req.atyp req.address)
    (hname : req.address.name = some name) :
    ∃ sent, sendRequest key.encrypt req = some sent ∧
      Reads readForwarded sent
        ⟨key.encrypt, key.decrypt, socksVersion, req.cmd, req.atyp, some name, req.port⟩ := by
  obtain ⟨address, hsent, haddress⟩ := reads_address key hread hname
  have hport : unpackH (key.decrypt (key.encrypt (packH req.port))) = some req.port := by
    rw [key.decrypt_encrypt, unpackH_packH]
  have hgen : genDecryptor (remoteEncrypt (allBytes.map fun i => key.encrypt [i])) =
      some key.decrypt := by
    rw [remoteEncrypt_eq, key.genDecryptor_eq]
  refine ⟨_, by rw [sendRequest, hsent]; rfl, ?_⟩
  rw [List.append_assoc, List.append_assoc, ← List.nil_append (key.encrypt [_, _, _, _] ++ _)]
  refine (reads_key key).bind (.bind (.lift hgen) (reads_header req.cmd req.atyp ?_))
  rw [if_neg (not_not.mpr rfl), remoteEncrypt_eq, ← List.append_nil (key.encrypt (packH _))]
  refine haddress.bind ((Reads.recv (length_encrypt key (packH req.port))).bind ?_)
  exact .bind (.lift hport) (.pure _)

/-- **THE REQUEST ARRIVES.**  From what the local side sends for a request it has parsed,
    with an address that has a text, the remote side rebuilds the same two functions and reads
    the same version, command, address type, address and port; it takes exactly the bytes
    sent. -/
theorem request_framing (key : KeyTable) (input rest : Bytes) (req : Request) (name : String)
    (hreq : readRequest input = some (req, rest)) (hname : req.address.name = some name) :
    ∃ sent, sendRequest key.encrypt req = some sent ∧
      Reads readForwarded sent
        ⟨key.encrypt, key.decrypt, socksVersion, req.cmd, req.atyp, some name, req.port⟩ :=
  reads_forwarded (readRequest_wellRead hreq) hname

/-- A request to connect to port 80 of `127.0.0.1`. -/
theorem request_framing_of_connect :
    ∃ sent, sendRequest nextByte.encrypt
        ⟨1, 1, .text (String.ofList ['1', '2', '7', '.', '0', '.', '0', '.', '1']), 80⟩ =
        some sent ∧
      Reads readForwarded sent ⟨nextByte.encrypt, nextByte.decrypt, socksVersion, 1, 1,
        some (String.ofList ['1', '2', '7', '.', '0', '.', '0', '.', '1']), 80⟩ :=
  request_framing nextByte [5, 1, 0, 1, 127, 0, 0, 1, 0, 80] [] _ _ rfl rfl

end Proxy
