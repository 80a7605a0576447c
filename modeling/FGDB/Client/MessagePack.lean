import FGDB.Client.SendMessage

/-!
# The format between client and server

The part of MessagePack that the messages and the replies are in: arrays of two, maps of
one pair, strings, binary data and numbers of one byte. Sizes of more than one byte stand
with the highest byte first.
-/

namespace FGDB.Client

open Foundation Server Operations

/-- A string; short ones have their size in the first byte. -/
def packRaw (bytes : List UInt8) : List UInt8 :=
  if bytes.length < 32 then UInt8.ofNat (0xa0 + bytes.length) :: bytes
  else 0xda :: ((leBytes 2 bytes.length).reverse ++ bytes)

/-- An array of the number of a command and a string or a pair of them. -/
def packObject : Object → List UInt8
  | .array [.positiveInteger cmd, .str key] => 0x92 :: cmd.toUInt8 :: packRaw key.bytes
  | .array [.positiveInteger cmd, .map [(.str key, .str val)]] =>
    0x92 :: cmd.toUInt8 :: 0x81 :: (packRaw key.bytes ++ packRaw val.bytes)
  | _ => []

def takeRaw (size : ℕ) (bytes : List UInt8) : Option (Raw × List UInt8) :=
  if h : size ≤ bytes.length ∧ size < 2 ^ 32 then
    some (⟨bytes.take size, (List.length_take_le _ _).trans_lt h.2⟩, bytes.drop size)
  else none

def unpackLong : List UInt8 → Option (Raw × List UInt8)
  | high :: low :: rest => takeRaw (leValue [low, high]) rest
  | _ => none

def unpackRaw : List UInt8 → Option (Raw × List UInt8)
  | [] => none
  | head :: rest =>
    if head = 0xda then unpackLong rest
    else if 0xa0 ≤ head.toNat ∧ head.toNat < 0xc0 then takeRaw (head.toNat - 0xa0) rest
    else none

/-- The second element of the array. -/
def unpackArgument (bytes : List UInt8) : Option (Object × List UInt8) :=
  if bytes.head? = some 0x81 then do
    let (key, rest) ← unpackRaw bytes.tail
    let (val, rest) ← unpackRaw rest
    return (.map [(.str key, .str val)], rest)
  else do
    let (key, rest) ← unpackRaw bytes
    return (.str key, rest)

def unpackObject : List UInt8 → Option Object
  | head :: cmd :: rest => do
    let (argument, rest) ← unpackArgument rest
    if head = 0x92 ∧ cmd < 0x80 ∧ rest = [] then
      return .array [.positiveInteger cmd.toUInt64, argument]
    else none
  | _ => none

def packCall : PackCall → List UInt8
  | .array size => [UInt8.ofNat (0x90 + size)]
  | .int value => [UInt8.ofNat value.toNat]
  | .bin size =>
    if size < 2 ^ 8 then [0xc4, UInt8.ofNat size] else 0xc5 :: (leBytes 2 size).reverse
  | .binBody body => body

def packReply (calls : List PackCall) : List UInt8 := calls.flatMap packCall

/-- The data behind its size, up to the end. -/
def unpackBin (size : ℕ) (code : ℤ) (bytes : List UInt8) : Unpacked :=
  if bytes.length = size then .array code (.scalar (.bytes bytes)) else .died

/-- A number or binary data. -/
def unpackSecond (code : ℤ) : List UInt8 → Unpacked
  | [value] => if value < 0x80 then .array code (.scalar (.int value.toNat)) else .died
  | 0xc4 :: size :: bytes => unpackBin size.toNat code bytes
  | 0xc5 :: high :: low :: bytes => unpackBin (leValue [low, high]) code bytes
  | _ => .died

def unpackReply : List UInt8 → Unpacked
  | 0x92 :: code :: second => unpackSecond code.toNat second
  | _ => .died

section Request

theorem takeRaw_append (raw : Raw) (rest : List UInt8) :
    takeRaw raw.bytes.length (raw.bytes ++ rest) = some (raw, rest) := by
  rw [takeRaw, dif_pos ⟨by rw [List.length_append]; exact Nat.le_add_right _ _, raw.size_lt⟩]
  simp only [List.take_left', List.drop_left']

/-- A string that is packed is unpacked, whatever follows it. -/
theorem unpackRaw_packRaw {raw : Raw} (hsize : raw.bytes.length < 2 ^ 16) (rest : List UInt8) :
    unpackRaw (packRaw raw.bytes ++ rest) = some (raw, rest) := by
  by_cases hshort : raw.bytes.length < 32
  · have hhead : (UInt8.ofNat (0xa0 + raw.bytes.length)).toNat = 0xa0 + raw.bytes.length := by
      rw [UInt8.toNat_ofNat']
      omega
    have hne : UInt8.ofNat (0xa0 + raw.bytes.length) ≠ 0xda := by
      intro heq
      have hnat := congrArg UInt8.toNat heq
      rw [hhead] at hnat
      have hda : (0xda : UInt8).toNat = 0xda := rfl
      omega
    rw [packRaw, if_pos hshort, List.cons_append, unpackRaw, if_neg hne, hhead, if_pos (by omega),
      Nat.add_sub_cancel_left, takeRaw_append]
  · have hvalue := @leValue_leBytes_of_lt 2 raw.bytes.length hsize
    simp only [leBytes] at hvalue
    rw [packRaw, if_neg hshort, List.cons_append, unpackRaw, if_pos rfl]
    simp only [leBytes, List.reverse_cons, List.reverse_nil, List.nil_append, List.cons_append,
      unpackLong, hvalue, takeRaw_append]

theorem head?_packRaw (bytes rest : List UInt8) : (packRaw bytes ++ rest).head? ≠ some 0x81 := by
  unfold packRaw
  split
  · next hshort =>
    intro heq
    have hnat := congrArg UInt8.toNat (Option.some.inj heq)
    rw [UInt8.toNat_ofNat'] at hnat
    have h81 : (0x81 : UInt8).toNat = 0x81 := rfl
    omega
  · intro heq
    cases heq

/-- What the client packs the server unpacks. -/
theorem unpackObject_packObject (call : ClientCall) :
    unpackObject (packObject call.object) = some call.object := by
  have hraw (s : Str) (rest : List UInt8) :
      unpackRaw (packRaw (rawOf s).bytes ++ rest) = some (rawOf s, rest) :=
    unpackRaw_packRaw s.size_lt rest
  obtain ⟨cmd, argument⟩ := call
  have hcmd : (commands cmd).toUInt8 < 0x80 ∧ (commands cmd).toUInt8.toUInt64 = commands cmd := by
    cases cmd <;> decide
  cases argument with
  | key key =>
    have hargument : unpackArgument (packRaw (rawOf key).bytes) = some (.str (rawOf key), []) := by
      have hhead := head?_packRaw (rawOf key).bytes []
      have hkey := hraw key []
      rw [List.append_nil] at hhead hkey
      rw [unpackArgument, if_neg hhead, hkey]
      rfl
    simp only [ClientCall.object, Argument.object, packObject, unpackObject, hargument,
      Option.bind_eq_bind, Option.bind_some, hcmd, and_self, if_true]
    rfl
  | pair key val =>
    have hargument : unpackArgument (0x81 :: (packRaw (rawOf key).bytes ++ packRaw (rawOf val).bytes)) =
        some (.map [(.str (rawOf key), .str (rawOf val))], []) := by
      have hval := hraw val []
      rw [List.append_nil] at hval
      rw [unpackArgument, if_pos List.head?_cons, List.tail_cons, hraw key]
      simp only [Option.bind_eq_bind, Option.bind_some, hval]
      rfl
    simp only [ClientCall.object, Argument.object, packObject, unpackObject, hargument,
      Option.bind_eq_bind, Option.bind_some, hcmd, and_self, if_true]
    rfl

end Request

section Reply

variable {code : ℤ}

/-- Of a number nothing can be missing. -/
theorem unpackSecond_status {value : ℕ} (hvalue : value < 4) {rest : List UInt8}
    (h : rest <+: [UInt8.ofNat value]) : unpackSecond code rest =
      if rest = [UInt8.ofNat value] then .array code (.scalar (.int value)) else .died := by
  have hbyte : UInt8.ofNat value < 0x80 ∧ (UInt8.ofNat value).toNat = value := by
    have hcases : value = 0 ∨ value = 1 ∨ value = 2 ∨ value = 3 := by omega
    rcases hcases with rfl | rfl | rfl | rfl <;> decide
  rcases List.prefix_cons_iff.mp h with rfl | ⟨more, rfl, hmore⟩
  · rfl
  · rw [List.prefix_nil.mp hmore, unpackSecond, if_pos hbyte.1, if_pos rfl, hbyte.2]

/-- Data that is cut is not data. -/
theorem unpackBin_part {bytes rest : List UInt8} (h : rest <+: bytes) :
    unpackBin bytes.length code rest =
      if rest = bytes then .array code (.scalar (.bytes bytes)) else .died := by
  by_cases hsame : rest = bytes
  · rw [unpackBin, hsame, if_pos rfl, if_pos rfl]
  · rw [unpackBin, if_neg (mt h.eq_of_length hsame), if_neg hsame]

theorem unpackSecond_value (val : Str) {rest : List UInt8}
    (h : rest <+: packCall (.bin val.size) ++ val.bytes) : unpackSecond code rest =
      if rest = packCall (.bin val.size) ++ val.bytes then .array code (.scalar (.bytes val.bytes))
      else .died := by
  rw [packCall] at h ⊢
  split at h
  · next hsmall =>
    have hsize : (UInt8.ofNat val.size).toNat = val.bytes.length := by
      rw [UInt8.toNat_ofNat', Nat.mod_eq_of_lt hsmall]
      rfl
    rw [if_pos hsmall]
    simp only [List.cons_append, List.nil_append] at h ⊢
    rcases List.prefix_cons_iff.mp h with rfl | ⟨more, rfl, hmore⟩
    · rfl
    · rcases List.prefix_cons_iff.mp hmore with rfl | ⟨body, rfl, hbody⟩
      · rfl
      · rw [unpackSecond, hsize, unpackBin_part hbody]
        simp only [List.cons.injEq, true_and]
  · next hlarge =>
    have hsize : leValue [UInt8.ofNat val.size, UInt8.ofNat (val.size / 256)] = val.bytes.length :=
      @leValue_leBytes_of_lt 2 val.size val.size_lt
    rw [if_neg hlarge]
    simp only [leBytes, List.reverse_cons, List.reverse_nil, List.cons_append, List.nil_append] at h ⊢
    rcases List.prefix_cons_iff.mp h with rfl | ⟨more, rfl, hmore⟩
    · rfl
    · rcases List.prefix_cons_iff.mp hmore with rfl | ⟨last, rfl, hlast⟩
      · rfl
      · rcases List.prefix_cons_iff.mp hlast with rfl | ⟨body, rfl, hbody⟩
        · rw [if_neg (by simp)]
          rfl
        · rw [unpackSecond, hsize, unpackBin_part hbody]
          simp only [List.cons.injEq, true_and]

/-- A reply is unpacked to what it was packed from, and nothing else that it starts with is. -/
theorem unpackReply_part {packed : List PackCall} {unpacked : Unpacked} {bytes : List UInt8}
    (hunpacks : Unpacks packed unpacked) (h : bytes <+: packReply packed) :
    unpackReply bytes = if bytes = packReply packed then unpacked else .died := by
  have hcode (code : ReplyCode) : ((UInt8.ofNat code.value.toNat).toNat : ℤ) = code.value := by
    cases code <;> rfl
  have hwhole {code : ReplyCode} {second : List UInt8} (hpacked : packReply packed =
        0x92 :: UInt8.ofNat code.value.toNat :: second)
      (hsecond : ∀ rest, rest <+: second →
        unpackSecond code.value rest = if rest = second then unpacked else .died) :
      unpackReply bytes = if bytes = packReply packed then unpacked else .died := by
    rw [hpacked] at h ⊢
    rcases List.prefix_cons_iff.mp h with rfl | ⟨more, rfl, hmore⟩
    · rfl
    · rcases List.prefix_cons_iff.mp hmore with rfl | ⟨rest, rfl, hrest⟩
      · rfl
      · rw [unpackReply, hcode, hsecond rest hrest]
        simp only [List.cons.injEq, true_and]
  cases hunpacks with
  | status code value hvalue =>
    have hpacked : packReply [.array 2, .int code.value, .int value] =
        0x92 :: UInt8.ofNat code.value.toNat :: [UInt8.ofNat value] := rfl
    exact hwhole hpacked fun rest hrest ↦ unpackSecond_status hvalue hrest
  | value code val =>
    have hpacked : packReply [.array 2, .int code.value, .bin val.size, .binBody val.bytes] =
        0x92 :: UInt8.ofNat code.value.toNat :: (packCall (.bin val.size) ++ val.bytes) := by
      simp only [packReply, List.flatMap_cons, List.flatMap_nil, List.append_nil]
      rfl
    exact hwhole hpacked fun rest hrest ↦ unpackSecond_value val hrest

end Reply

theorem interoperates_messagePack :
    Interoperates packObject unpackObject packReply unpackReply where
  request := unpackObject_packObject
  reply packed unpacked hunpacks := by
    rw [unpackReply_part hunpacks (List.prefix_refl _), if_pos rfl]
  part packed unpacked bytes hunpacks hbytes hne := by
    rw [unpackReply_part hunpacks hbytes, if_neg hne]

end FGDB.Client
