import UniqueFreshman.ProxyRequestProofs

/-! # The proxy — the password before the request, and the reply after it

    The remote side takes a connection only from a local side that knows the
    password.  The local side announces its length in characters and sends it in
    bytes; the remote side takes as many bytes as were announced.

    After the request the remote side sends a reply of ten bytes, whatever has
    become of the connection to the target.  The local side reads the reply field
    by field, with a branch for each type of address, and passes on what it has
    read.  An exception on the way leaves the rest of the reply in the socket, and
    the local side makes up a refusal of its own: so a read here keeps what is
    left of the stream, and an exception has the `atyp` that was set last. -/

namespace Proxy

open Cipher WireFormat

/-! ## The password -/

/-- The password frame of `SocksProxyLocal.handle`: the number of characters, and the encoded
    characters. -/
def sendPassword (password : String) : Option Bytes := do
  let length ← packB password.length
  some (length ++ encodeUtf8 password)

/-- The check in `SocksProxyRemote.handle`: `true` to go on, `false` to close the connection. -/
def checkPassword (password : String) : Reader Bool := do
  let npassword ← lift (unpackB (← recv 1))
  let given_password ← lift (decodeUtf8 (← recv npassword.toNat))
  pure (given_password == password)

/-- The length counts characters, and the bytes follow. -/
theorem sendPassword_eq {p : String} (hp : p.length < 256) :
    sendPassword p = some (UInt8.ofNat p.length :: encodeUtf8 p) := by
  rw [sendPassword, packB, if_pos hp]
  rfl

/-- What the remote side makes of a frame: it takes as many BYTES as the password has
    characters. -/
theorem checkPassword_frame {p : String} (hp : p.length < 256) (q : String) (rest : Bytes) :
    checkPassword q (UInt8.ofNat p.length :: encodeUtf8 p ++ rest) =
      (decodeUtf8 ((encodeUtf8 p).take p.length)).map fun s =>
        (s == q, (encodeUtf8 p).drop p.length ++ rest) := by
  have hnat : (UInt8.ofNat p.length).toNat = p.length := UInt8.toNat_ofNat_of_lt' hp
  have hone : Reads (recv 1) [UInt8.ofNat p.length] [UInt8.ofNat p.length] := .recv rfl
  have htake : Reads (recv p.length) ((encodeUtf8 p).take p.length)
      ((encodeUtf8 p).take p.length) :=
    .recv (List.length_take_of_le (length_le_encodeUtf8 p))
  have hlength : Reads (lift (unpackB [UInt8.ofNat p.length])) [] (UInt8.ofNat p.length) :=
    .lift rfl
  have hstream : UInt8.ofNat p.length :: encodeUtf8 p ++ rest = [UInt8.ofNat p.length] ++
      ((encodeUtf8 p).take p.length ++ ((encodeUtf8 p).drop p.length ++ rest)) := by
    rw [← List.append_assoc (List.take _ _), List.take_append_drop]
    rfl
  rw [checkPassword, hstream]
  refine (hone.andThen _ _).trans ((hlength.andThen _ _).trans ?_)
  rw [hnat]
  refine (htake.andThen _ _).trans ?_
  cases hdecode : decodeUtf8 ((encodeUtf8 p).take p.length) with
  | none => rfl
  | some s => rfl

/-- The remote side goes on behind the frame, just when the passwords are equal. -/
def FrameAgrees (p q : String) : Prop :=
  ∃ frame, sendPassword p = some frame ∧ ∀ rest,
    ((∃ rest', checkPassword q (frame ++ rest) = some (true, rest')) ↔ p = q) ∧
    (p = q → checkPassword q (frame ++ rest) = some (true, rest))

/-- The remote side reads as many bytes as the password has characters. -/
theorem checkPassword_accepts {p q : String} (hp : p.length < 256) (rest rest' : Bytes) :
    checkPassword q (UInt8.ofNat p.length :: encodeUtf8 p ++ rest) = some (true, rest') ↔
      encodeUtf8 q = (encodeUtf8 p).take p.length ∧
        rest' = (encodeUtf8 p).drop p.length ++ rest := by
  rw [checkPassword_frame hp, Option.map_eq_some_iff, ← decodeUtf8_eq_some]
  constructor
  · rintro ⟨s, hs, heq⟩
    obtain ⟨hsq, hrest⟩ := Prod.mk.inj heq
    obtain rfl : s = q := eq_of_beq hsq
    exact ⟨hs, hrest.symm⟩
  · rintro ⟨hq, rfl⟩
    exact ⟨q, hq, Prod.ext (beq_self_eq_true q) rfl⟩

/-- The bytes of an ASCII password are its characters. -/
theorem take_encodeUtf8_of_ascii {p : String} (h : IsAscii p) :
    (encodeUtf8 p).take p.length = encodeUtf8 p ∧ (encodeUtf8 p).drop p.length = [] := by
  have hlength : (encodeUtf8 p).length ≤ p.length := (length_encodeUtf8_eq_iff.mpr h).le
  exact ⟨List.take_of_length_le hlength, List.drop_eq_nil_of_le hlength⟩

/-- That is right for an ASCII password. -/
theorem frameAgrees_of_ascii {p : String} (hp : p.length < 256) (h : IsAscii p) (q : String) :
    FrameAgrees p q := by
  obtain ⟨htake, hdrop⟩ := take_encodeUtf8_of_ascii h
  refine ⟨_, sendPassword_eq hp, fun rest => ?_⟩
  simp only [checkPassword_accepts hp, htake, hdrop, List.nil_append]
  constructor
  · constructor
    · rintro ⟨_, hq, -⟩
      exact (encodeUtf8_injective hq).symm
    · rintro rfl
      exact ⟨rest, rfl, rfl⟩
  · rintro rfl
    exact ⟨rfl, trivial⟩

/-- A frame that is too short for its password never agrees with the password itself, nor with
    what its first bytes are an encoding of. -/
theorem not_frameAgrees {p q : String} (hp : p.length < 256) (h : ¬ IsAscii p)
    (hq : p = q ∨ encodeUtf8 q = (encodeUtf8 p).take p.length) : ¬ FrameAgrees p q := by
  rintro ⟨frame, hframe, hagrees⟩
  obtain rfl := Option.some.inj ((sendPassword_eq hp).symm.trans hframe)
  obtain ⟨hiff, hrest⟩ := hagrees []
  have hshort : encodeUtf8 p ≠ (encodeUtf8 p).take p.length := by
    intro heq
    refine h (length_encodeUtf8_eq_iff.mp ?_)
    rw [heq, List.length_take_of_le (length_le_encodeUtf8 p)]
  obtain rfl : p = q := hq.elim id fun htake =>
    hiff.mp ⟨_, (checkPassword_accepts hp [] _).mpr ⟨htake, rfl⟩⟩
  exact hshort ((checkPassword_accepts hp [] []).mp (hrest rfl)).1

/-- **THE PASSWORD FRAME AGREES** just when the local password is ASCII, or the remote one is
    neither equal to it nor encoded by as many of its bytes as it has characters. -/
theorem password_frame_iff (p q : String) (hp : (encodeUtf8 p).length ≤ 255) :
    FrameAgrees p q ↔
      IsAscii p ∨ (p ≠ q ∧ encodeUtf8 q ≠ (encodeUtf8 p).take p.length) := by
  have hlt : p.length < 256 := by
    have hle := length_le_encodeUtf8 p
    omega
  constructor
  · intro hagrees
    by_cases hascii : IsAscii p
    · exact .inl hascii
    · refine .inr ⟨fun heq => ?_, fun heq => ?_⟩
      · exact not_frameAgrees hlt hascii (.inl heq) hagrees
      · exact not_frameAgrees hlt hascii (.inr heq) hagrees
  · rintro (hascii | ⟨hne, hq⟩)
    · exact frameAgrees_of_ascii hlt hascii q
    · -- rejected, as it should be
      refine ⟨_, sendPassword_eq hlt, fun rest => ⟨⟨?_, fun heq => absurd heq hne⟩,
        fun heq => absurd heq hne⟩⟩
      rintro ⟨rest', haccept⟩
      exact absurd ((checkPassword_accepts hlt rest rest').mp haccept).1 hq

theorem password_frame_of_ascii :
    FrameAgrees (String.ofList ['a', 'b']) (String.ofList ['a', 'b']) :=
  (password_frame_iff _ _ (by decide)).mpr (.inl (by decide))

/-- A password of one character and two bytes is not accepted; with one more character it is
    accepted by a remote side that has another one. -/
theorem accented_password_fails :
    ¬ FrameAgrees (String.ofList ['é']) (String.ofList ['é']) ∧
    ¬ FrameAgrees (String.ofList ['é', 'a']) (String.ofList ['é']) ∧
    checkPassword (String.ofList ['é']) [2, 0xc3, 0xa9, 0x61] = some (true, [0x61]) := by
  refine ⟨?_, ?_, ?_⟩
  · exact not_frameAgrees (by decide) (by decide) (.inl rfl)
  · exact not_frameAgrees (by decide) (by decide) (.inr (by decide))
  · decide

/-! ## The reply -/

/-- `struct.pack("!BBBBIH", SOCKS_VERSION, rep, 0, atyp, addr, port)`. -/
def packReply (rep atyp : UInt8) (addr : Nat) (port : UInt16) : Bytes :=
  [socksVersion, rep, 0, atyp] ++ packI addr ++ packH port

/-- The reply to `CONNECT` in `SocksProxyRemote.handle`; `bind_address` is what the socket to
    the target is bound to, unless connecting it has raised an exception. -/
def remoteReply (atyp : UInt8) (bind_address : Option (String × UInt16)) : Bytes :=
  let reply := do
    let (host, port) ← bind_address
    let addr ← unpackI (← inetAton host)
    some (packReply 0 1 addr port)
  reply.getD (packReply 5 atyp 0 0)

/-- A value that `struct.pack` is called with. -/
inductive Value where
  | int (n : Nat)
  | tuple (ns : List Nat)

/-- `struct.pack("!B", value)`, which takes no tuple. -/
def packValue : Value → Option Bytes
  | .int n => packB n
  | .tuple _ => none

/-- A block of the local side: what it has read off the socket stays read when it raises an
    exception. -/
abbrev Session := ExceptT UInt8 (StateM Bytes)

/-- `remote.recv(n)`, returning exactly `n` bytes. -/
def recvReply (atyp : UInt8) (n : Nat) : Session Bytes := do
  let s ← get
  if n ≤ s.length then
    set (s.drop n)
    pure (s.take n)
  else throw atyp

/-- A value, or an exception. -/
def orRaise {α : Type} (atyp : UInt8) : Option α → Session α
  | some a => pure a
  | none => throw atyp

/-- The reply in the `try` block of `SocksProxyLocal.handle`. -/
def readReply (decrypt : Bytes → Bytes) (atyp : UInt8) : Session Bytes := do
  let reply := decrypt (← recvReply atyp 4)
  let atyp ← orRaise atyp reply[3]?
  if atyp = 1 then
    let address := decrypt (← recvReply atyp 4)
    pure (reply ++ address)
  else if atyp = 3 then
    let length ← orRaise atyp (unpackB (decrypt (← recvReply atyp 1)))
    -- `unpack` returns a tuple, and its first entry is not taken
    let domain_length := Value.tuple [length.toNat]
    let reply := reply ++ (← orRaise atyp (packValue domain_length))
    let domain := decrypt (← recvReply atyp length.toNat)
    pure (reply ++ domain)
  else pure reply

/-- What the local side sends to its client, and what is left of the stream. -/
def localReply (decrypt : Bytes → Bytes) (atyp : UInt8) (s : Bytes) : Bytes × Bytes :=
  match (readReply decrypt atyp).run.run s with
  | (.ok reply, s) => (reply, s)
  | (.error atyp, s) => (packReply 5 atyp 0 0, s)

/-- A read goes on behind the bytes it takes. -/
theorem recvReply_andThen {β : Type} {atyp : UInt8} {n : Nat} {a : Bytes} (h : a.length = n)
    (f : Bytes → Session β) (s : Bytes) :
    (recvReply atyp n >>= f).run.run (a ++ s) = (f a).run.run s := by
  have hn : n ≤ (a ++ s).length := by
    rw [List.length_append]
    omega
  have hrecv : (recvReply atyp n).run.run (a ++ s) = (.ok a, s) := by
    show (if n ≤ (a ++ s).length then (do set ((a ++ s).drop n); pure ((a ++ s).take n))
      else throw atyp : Session Bytes).run.run (a ++ s) = _
    rw [if_pos hn, ← h, List.take_left, List.drop_left]
    rfl
  rw [ExceptT.run_bind, StateT.run_bind, hrecv]
  rfl

/-- A value that is there. -/
theorem orRaise_some_bind {α β : Type} (atyp : UInt8) (a : α) (f : α → Session β) :
    (orRaise atyp (some a) >>= f) = f a :=
  pure_bind a f

variable (key : KeyTable)

/-- What the local side makes of ten bytes, for each type of address. -/
theorem localReply_packReply (atyp₀ rep atyp : UInt8) (addr : Nat) (port : UInt16)
    (rest : Bytes) :
    localReply key.decrypt atyp₀ (key.encrypt (packReply rep atyp addr port) ++ rest) =
      if atyp = 1 then
        ([socksVersion, rep, 0, atyp] ++ packI addr, key.encrypt (packH port) ++ rest)
      else if atyp = 3 then
        (packReply 5 3 0 0, key.encrypt ((packI addr).tail ++ packH port) ++ rest)
      else ([socksVersion, rep, 0, atyp], key.encrypt (packI addr ++ packH port) ++ rest) := by
  have hlength := length_encrypt key
  have hheader : key.encrypt (packReply rep atyp addr port) ++ rest =
      key.encrypt [socksVersion, rep, 0, atyp] ++
        (key.encrypt (packI addr ++ packH port) ++ rest) := by
    rw [packReply, List.append_assoc, key.encrypt_append, List.append_assoc]
  have hfour : (key.encrypt [socksVersion, rep, 0, atyp]).length = 4 := hlength _
  have hatyp : [socksVersion, rep, 0, atyp][3]? = some atyp := rfl
  rw [localReply, readReply, hheader, recvReply_andThen hfour]
  simp only [key.decrypt_encrypt, hatyp, orRaise_some_bind]
  by_cases hone : atyp = 1
  · have haddr : (key.encrypt (packI addr)).length = 4 := hlength _
    simp only [if_pos hone]
    rw [key.encrypt_append, List.append_assoc, recvReply_andThen haddr, key.decrypt_encrypt]
    rfl
  · by_cases hthree : atyp = 3
    · -- one byte is taken before the exception
      have hbyte : (key.encrypt [UInt8.ofNat (addr / 2 ^ 24)]).length = 1 := hlength _
      have hsplit : key.encrypt (packI addr ++ packH port) ++ rest =
          key.encrypt [UInt8.ofNat (addr / 2 ^ 24)] ++
            (key.encrypt ((packI addr).tail ++ packH port) ++ rest) := by
        rw [← List.append_assoc, ← key.encrypt_append]
        rfl
      simp only [if_neg hone, if_pos hthree]
      rw [hsplit, recvReply_andThen hbyte, key.decrypt_encrypt, hthree]
      rfl
    · simp only [if_neg hone, if_neg hthree]
      rfl

/-- The replies of the remote side all have the layout of `packReply`. -/
theorem remoteReply_packed (atyp : UInt8) (bind_address : Option (String × UInt16)) :
    ∃ rep atyp' addr port, remoteReply atyp bind_address = packReply rep atyp' addr port := by
  cases bind_address with
  | none => exact ⟨5, atyp, 0, 0, rfl⟩
  | some bound =>
      obtain ⟨host, port⟩ := bound
      cases haton : inetAton host with
      | none => exact ⟨5, atyp, 0, 0, by simp [remoteReply, haton]⟩
      | some data =>
          cases haddr : unpackI data with
          | none => exact ⟨5, atyp, 0, 0, by simp [remoteReply, haton, haddr]⟩
          | some addr => exact ⟨0, 1, addr, port, by simp [remoteReply, haton, haddr]⟩

theorem packReply_atyp {rep rep' atyp atyp' : UInt8} {addr addr' : Nat} {port port' : UInt16}
    (h : packReply rep atyp addr port = packReply rep' atyp' addr' port') : atyp = atyp' := by
  have hthree : (packReply rep atyp addr port)[3]? = (packReply rep' atyp' addr' port')[3]? := by
    rw [h]
  exact Option.some.inj hthree

/-- **NO REPLY IS RELAYED WHOLE.**  Whatever the remote side replies, the local side leaves
    bytes of it in the socket.  The bytes that reach the client before other data are the reply
    in one case only: a refusal for a domain name, which the local side has made up. -/
theorem reply_never_relayed (key : KeyTable) (atyp₀ atyp : UInt8)
    (bind_address : Option (String × UInt16)) (rest : Bytes) :
    let reply := remoteReply atyp bind_address
    let relayed := localReply key.decrypt atyp₀ (key.encrypt reply ++ rest)
    relayed.2 ≠ rest ∧ (relayed.1 = reply ↔ reply = packReply 5 3 0 0) := by
  obtain ⟨rep, atyp', addr, port, hreply⟩ := remoteReply_packed atyp bind_address
  rw [hreply]
  intro reply relayed
  have hrelayed : relayed = _ := localReply_packReply key atyp₀ rep atyp' addr port rest
  have hleft (left : Bytes) (hpos : 0 < left.length) : key.encrypt left ++ rest ≠ rest := by
    intro heq
    have hlength := congrArg List.length heq
    rw [List.length_append, length_encrypt key] at hlength
    omega
  have hlength : reply.length = 10 := rfl
  have hcut {sent : Bytes} (hsent : sent.length < 10) (hne : atyp' ≠ 3) :
      sent = reply ↔ reply = packReply 5 3 0 0 :=
    ⟨fun heq => absurd (heq ▸ hlength) hsent.ne, fun heq => absurd (packReply_atyp heq) hne⟩
  rw [hrelayed]
  by_cases hone : atyp' = 1
  · rw [if_pos hone]
    exact ⟨hleft (packH port) Nat.two_pos, hcut (by decide : 8 < 10) (by simp [hone])⟩
  · rw [if_neg hone]
    by_cases hthree : atyp' = 3
    · rw [if_pos hthree]
      exact ⟨hleft ((packI addr).tail ++ packH port) (Nat.succ_pos 4), eq_comm⟩
    · rw [if_neg hthree]
      exact ⟨hleft (packI addr ++ packH port) (Nat.succ_pos 5),
        hcut (by decide : 4 < 10) hthree⟩

/-- The target's socket is bound to port 80 of `127.0.0.1`: the client gets eight bytes, and the
    two of the port are left. -/
theorem bound_port_is_left :
    remoteReply 1 (some (String.ofList ['1', '2', '7', '.', '0', '.', '0', '.', '1'], 80)) =
      [5, 0, 0, 1, 127, 0, 0, 1, 0, 80] ∧
    localReply nextByte.decrypt 1 (nextByte.encrypt [5, 0, 0, 1, 127, 0, 0, 1, 0, 80]) =
      ([5, 0, 0, 1, 127, 0, 0, 1], nextByte.encrypt [0, 80]) ∧
    localReply nextByte.decrypt 1 (nextByte.encrypt [5, 0, 0, 1, 127, 0, 0, 1, 0, 80]) ≠
      ([5, 0, 0, 1, 127, 0, 0, 1, 0, 80], []) := by
  have hlocal : localReply nextByte.decrypt 1
      (nextByte.encrypt [5, 0, 0, 1, 127, 0, 0, 1, 0, 80]) =
      ([5, 0, 0, 1, 127, 0, 0, 1], nextByte.encrypt [0, 80]) := by
    rw [nextByte_decrypt, nextByte_encrypt]
    rfl
  refine ⟨rfl, hlocal, ?_⟩
  rw [hlocal]
  exact fun heq => absurd (congrArg Prod.fst heq) (by decide)

end Proxy
