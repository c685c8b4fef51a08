import Mathlib.Data.List.Nodup
import Mathlib.Data.List.Perm.Basic
import Mathlib.Data.List.Rotate
import Mathlib.Logic.Function.Basic

/-! # The proxy's cipher — a key table and its inverse

    `encrypt.py` replaces every byte by the entry of a table that is a
    permutation of the 256 bytes.  `gen_decryptor` gets the encryption as a
    function: it encrypts each byte on its own and stores the byte at the index
    it is encrypted to.  A Python list of 256 byte values is a vector here, and
    a byte is always an index into it.

    `decryptor_spec` is the loop's result, for every permutation; what follows
    for whole streams is that both functions work byte by byte
    (`encrypt_append`, `decrypt_append`) and undo each other, in whatever chunks a
    stream arrives (`decrypts_any_chunking`). -/

namespace Cipher

abbrev Bytes := List UInt8

abbrev Table := Vector UInt8 256

def look (t : Table) (b : UInt8) : UInt8 := t[b.toFin]

def store (t : Table) (b x : UInt8) : Table := t.set b.toNat x b.toNat_lt

/-- `range(PASSWORD_LENGTH)`. -/
def allBytes : List UInt8 := (List.range 256).map UInt8.ofNat

/-- The table `password` of `gen_encryper`, after the shuffle. -/
structure KeyTable where
  password : Table
  perm : password.toList.Perm allBytes

def encrypt (key : Table) (data : Bytes) : Bytes := data.map (look key)

/-- One round of the loop: `ord` raises an exception unless one byte is encrypted to one. -/
def decryptorStep (encrypt : Bytes → Bytes) (decryptor : Table) (i : UInt8) : Option Table :=
  match encrypt [i] with
  | [val] => some (store decryptor val i)
  | _ => none

/-- The table `decryptor`. -/
def decryptorTable (encrypt : Bytes → Bytes) : Option Table :=
  allBytes.foldlM (decryptorStep encrypt) (Vector.ofFn fun i => UInt8.ofNat i)

def genDecryptor (encrypt : Bytes → Bytes) : Option (Bytes → Bytes) :=
  (decryptorTable encrypt).map fun decryptor data => data.map (look decryptor)

/-- The loops over `PASSWORD_LENGTH` reach every byte. -/
theorem mem_allBytes (b : UInt8) : b ∈ allBytes :=
  List.mem_map.mpr ⟨b.toNat, List.mem_range.mpr b.toNat_lt, UInt8.ofNat_toNat⟩

theorem allBytes_nodup : allBytes.Nodup := by
  refine List.nodup_range.map_on fun i hi j hj hij => ?_
  have hi := UInt8.toNat_ofNat_of_lt' (List.mem_range.mp hi)
  have hj := UInt8.toNat_ofNat_of_lt' (List.mem_range.mp hj)
  rw [← hi, ← hj, hij]

/-- A table with one entry changed. -/
theorem look_store (t : Table) (a b x : UInt8) :
    look (store t a x) b = if b = a then x else look t b := by
  have hiff : a.toNat = (b.toFin : Nat) ↔ b = a := by
    show a.toNat = b.toNat ↔ b = a
    rw [UInt8.toNat_inj, eq_comm]
  simp only [look, store, Fin.getElem_fin, Vector.getElem_set, hiff]

/-- A permutation maps different bytes to different bytes. -/
theorem KeyTable.look_injective (key : KeyTable) : Function.Injective (look key.password) := by
  have hnodup : key.password.toList.Nodup := key.perm.nodup_iff.mpr allBytes_nodup
  intro a b hab
  simp only [look, Fin.getElem_fin] at hab
  exact UInt8.toNat_inj.mp (hnodup.getElem_inj_iff.mp hab)

/-- Every byte is an entry of the table. -/
theorem KeyTable.look_surjective (key : KeyTable) : Function.Surjective (look key.password) := by
  intro b
  have hmem : b ∈ key.password.toList := key.perm.mem_iff.mpr (mem_allBytes b)
  obtain ⟨i, hi, hb⟩ := List.mem_iff_getElem.mp hmem
  rw [Vector.length_toList] at hi
  refine ⟨UInt8.ofNatLT i hi, ?_⟩
  rw [← hb, Vector.getElem_toList]
  rfl

/-- **THE INVERSE TABLE**: a table filled by the loop over `bytes` inverts the key on them. -/
theorem foldlM_decryptorStep (key : KeyTable) (bytes : List UInt8) (d : Table) :
    ∃ d', bytes.foldlM (decryptorStep (encrypt key.password)) d = some d' ∧
      ∀ b, look d' (look key.password b) =
        if b ∈ bytes then b else look d (look key.password b) := by
  induction bytes generalizing d with
  | nil => exact ⟨d, rfl, fun b => by rw [if_neg (List.not_mem_nil)]⟩
  | cons i bytes ih =>
      obtain ⟨d', hd', hlook⟩ := ih (store d (look key.password i) i)
      refine ⟨d', hd', fun b => ?_⟩
      rw [hlook b, look_store]
      simp only [key.look_injective.eq_iff]
      by_cases hb : b ∈ bytes
      · rw [if_pos hb, if_pos (List.mem_cons_of_mem i hb)]
      · rw [if_neg hb]
        by_cases hi : b = i
        · rw [if_pos hi, if_pos (hi ▸ List.mem_cons_self ..), hi]
        · rw [if_neg hi, if_neg (by simp [hb, hi])]

/-- **THE DECRYPTOR IS AN INVERSE** of the table that it was made from. -/
theorem decryptor_spec (key : KeyTable) :
    ∃ d, decryptorTable (encrypt key.password) = some d ∧
      ∀ b, look d (look key.password b) = b := by
  obtain ⟨d, hd, hlook⟩ := foldlM_decryptorStep key allBytes (Vector.ofFn fun i => UInt8.ofNat i)
  exact ⟨d, hd, fun b => by rw [hlook b, if_pos (mem_allBytes b)]⟩

/-! ## Streams -/

namespace KeyTable

variable (key : KeyTable)

def encrypt : Bytes → Bytes := Cipher.encrypt key.password

/-- `gen_decryptor(encrypt)`, which returns a function for every key. -/
def decrypt : Bytes → Bytes := (genDecryptor key.encrypt).getD id

/-- The decryption is a table that inverts the key. -/
theorem decrypt_table :
    ∃ d, genDecryptor key.encrypt = some key.decrypt ∧ key.decrypt = List.map (look d) ∧
      ∀ b, look d (look key.password b) = b := by
  obtain ⟨d, hd, hlook⟩ := decryptor_spec key
  have hgen : genDecryptor key.encrypt = some (List.map (look d)) := congrArg (Option.map _) hd
  have hdecrypt : key.decrypt = List.map (look d) := by rw [decrypt, hgen, Option.getD_some]
  exact ⟨d, hdecrypt ▸ hgen, hdecrypt, hlook⟩

/-- `gen_decryptor` of a key table does not fail. -/
theorem genDecryptor_eq : genDecryptor key.encrypt = some key.decrypt := by
  obtain ⟨d, hgen, -⟩ := key.decrypt_table
  exact hgen

/-- **DECRYPTION UNDOES ENCRYPTION.** -/
theorem decrypt_encrypt (data : Bytes) : key.decrypt (key.encrypt data) = data := by
  obtain ⟨d, -, hdecrypt, hlook⟩ := key.decrypt_table
  rw [hdecrypt]
  show (data.map (look key.password)).map (look d) = data
  rw [List.map_map]
  exact List.map_id'' hlook data

/-- Encryption works byte by byte. -/
theorem encrypt_append (a b : Bytes) : key.encrypt (a ++ b) = key.encrypt a ++ key.encrypt b :=
  List.map_append

theorem decrypt_append (a b : Bytes) : key.decrypt (a ++ b) = key.decrypt a ++ key.decrypt b := by
  obtain ⟨d, -, hdecrypt, -⟩ := key.decrypt_table
  rw [hdecrypt]
  exact List.map_append

/-- **ENCRYPTION UNDOES DECRYPTION**, since every byte is the image of one. -/
theorem encrypt_decrypt (data : Bytes) : key.encrypt (key.decrypt data) = data := by
  obtain ⟨plain, rfl⟩ : ∃ plain, key.encrypt plain = data := by
    obtain ⟨plain, hplain⟩ := key.look_surjective.list_map data
    exact ⟨plain, hplain⟩
  rw [key.decrypt_encrypt]

/-- Chunks are decrypted one by one. -/
theorem decrypt_flatten (chunks : List Bytes) :
    (chunks.map key.decrypt).flatten = key.decrypt chunks.flatten := by
  induction chunks with
  | nil =>
      obtain ⟨d, -, hdecrypt, -⟩ := key.decrypt_table
      rw [hdecrypt]
      rfl
  | cons chunk chunks ih =>
      rw [List.map_cons, List.flatten_cons, List.flatten_cons, ih, key.decrypt_append]

/-- **ANY CHUNKING.**  For every key table the loop of `gen_decryptor` returns a function; it
    decrypts an encrypted stream in whatever chunks it arrives, and is undone by the
    encryption. -/
theorem decrypts_any_chunking :
    ∃ decrypt, genDecryptor key.encrypt = some decrypt ∧
      ∀ data, (∀ chunks : List Bytes, chunks.flatten = key.encrypt data →
          (chunks.map decrypt).flatten = data) ∧
        key.encrypt (decrypt data) = data := by
  refine ⟨key.decrypt, key.genDecryptor_eq, fun data => ⟨fun chunks hchunks => ?_, ?_⟩⟩
  · rw [key.decrypt_flatten, hchunks, key.decrypt_encrypt]
  · exact key.encrypt_decrypt data

-- the table is known from here on by what it does
attribute [irreducible] decrypt

end KeyTable

/-! ## An example -/

/-- A key without fixed points: every byte is replaced by the next one. -/
def nextByte : KeyTable where
  password := Vector.ofFn fun i => UInt8.ofNat (i + 1)
  perm := by
    have hrotate : (Vector.ofFn fun i : Fin 256 => UInt8.ofNat (i + 1)).toList =
        allBytes.rotate 1 := by decide +kernel
    rw [hrotate]
    exact List.rotate_perm allBytes 1

theorem nextByte_encrypt : nextByte.encrypt = List.map (· + 1) := by
  have hlook : look nextByte.password = (· + 1) := by
    ext1 b
    show (Vector.ofFn fun i : Fin 256 => UInt8.ofNat (i + 1))[b.toFin] = b + 1
    rw [Fin.getElem_fin, Vector.getElem_ofFn]
    exact (UInt8.ofNat_add b.toNat 1).trans (congrArg (· + 1) UInt8.ofNat_toNat)
  exact congrArg List.map hlook

theorem nextByte_decrypt : nextByte.decrypt = List.map (· - 1) := by
  ext1 data
  have hdata : nextByte.encrypt (data.map (· - 1)) = data := by
    rw [nextByte_encrypt, List.map_map]
    exact List.map_id'' (fun b => UInt8.sub_add_cancel b 1) data
  rw [← hdata, nextByte.decrypt_encrypt, hdata]

end Cipher
