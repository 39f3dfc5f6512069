import Nachos.Lib.Bytes

/-! The headers of `network.h` and `post.h`, and how a packet is laid out on the wire. A header
has 12 bytes, `MaxWireSize` is 64, `MaxPacketSize` 52 and `MaxMailSize` 40. -/

namespace Nachos
open Lib

abbrev NetworkAddress := Word
abbrev MailBoxAddress := Word

/-- `bcopy` of `n` bytes from a pointer; what lies behind the given bytes reads as 0. -/
def bcopy (source : List Byte) (n : Nat) : List Byte := (source ++ List.replicate n 0).take n

def headerBytes (dest sender length : Word) : List Byte := bytesOfWords [dest, sender, length]

def headerWord (buffer : List Byte) (i : Nat) : Word := (wordsOfBytes (buffer.take 12)).getD i 0

structure PacketHeader where
  /-- `to` in the source. -/
  dest : NetworkAddress
  /-- `from` in the source. -/
  sender : NetworkAddress
  /-- `unsigned`: the bytes of packet data, without this header. -/
  length : Word
  deriving DecidableEq

def PacketHeader.bytes (hdr : PacketHeader) : List Byte :=
  headerBytes hdr.dest hdr.sender hdr.length

/-- `*(PacketHeader *)buffer`. -/
def PacketHeader.ofBytes (buffer : List Byte) : PacketHeader :=
  ⟨headerWord buffer 0, headerWord buffer 1, headerWord buffer 2⟩

structure MailHeader where
  /-- `to` in the source. -/
  dest : MailBoxAddress
  /-- `from` in the source. -/
  sender : MailBoxAddress
  /-- `unsigned`: the bytes of message data, without this header. -/
  length : Word
  deriving DecidableEq

def MailHeader.bytes (hdr : MailHeader) : List Byte := headerBytes hdr.dest hdr.sender hdr.length

/-- `*(MailHeader *)buffer`. -/
def MailHeader.ofBytes (buffer : List Byte) : MailHeader :=
  ⟨headerWord buffer 0, headerWord buffer 1, headerWord buffer 2⟩

/-- A `Mail` object, with the part of its data that is in use. -/
structure Mail where
  pktHdr : PacketHeader
  mailHdr : MailHeader
  data : List Byte
  deriving DecidableEq

/-- The buffer that `Network::Send` gives to the socket. -/
def wire (hdr : PacketHeader) (data : List Byte) : List Byte :=
  hdr.bytes ++ bcopy data hdr.length.toNat ++ List.replicate (52 - hdr.length.toNat) 0

/-! ## Reading back what was laid out -/

theorem bcopy_of_length {source : List Byte} {n : Nat} (h : n = source.length) :
    bcopy source n = source := by
  subst h
  exact List.take_left

theorem bcopy_append {source rest : List Byte} {n : Nat} (h : n = source.length) :
    bcopy (source ++ rest) n = source := by
  subst h
  rw [bcopy, List.append_assoc]
  exact List.take_left

@[simp] theorem length_bcopy (source : List Byte) (n : Nat) : (bcopy source n).length = n := by
  simp [bcopy]

@[simp] theorem length_headerBytes (dest sender length : Word) :
    (headerBytes dest sender length).length = 12 := by
  simp [headerBytes]

theorem headerWord_append (dest sender length : Word) (rest : List Byte) (i : Nat) :
    headerWord (headerBytes dest sender length ++ rest) i = [dest, sender, length].getD i 0 := by
  rw [headerWord, List.take_left' (length_headerBytes ..), headerBytes, wordsOfBytes_bytesOfWords]

@[simp] theorem PacketHeader.ofBytes_append (hdr : PacketHeader) (rest : List Byte) :
    PacketHeader.ofBytes (hdr.bytes ++ rest) = hdr := by
  simp [ofBytes, bytes, headerWord_append]

@[simp] theorem MailHeader.ofBytes_append (hdr : MailHeader) (rest : List Byte) :
    MailHeader.ofBytes (hdr.bytes ++ rest) = hdr := by
  simp [ofBytes, bytes, headerWord_append]

theorem PacketHeader.ofBytes_wire (hdr : PacketHeader) (data : List Byte) :
    PacketHeader.ofBytes (wire hdr data) = hdr := by
  rw [wire, List.append_assoc, ofBytes_append]

theorem bcopy_drop_wire (hdr : PacketHeader) (data : List Byte) :
    bcopy ((wire hdr data).drop 12) hdr.length.toNat = bcopy data hdr.length.toNat := by
  rw [wire, List.append_assoc, List.drop_left' (by simp [PacketHeader.bytes])]
  exact bcopy_append (length_bcopy ..).symm

/-! ## Mail in a packet -/

/-- The headers agree with the message, which is not too long. -/
structure Mail.Valid (mail : Mail) : Prop where
  length : mail.mailHdr.length.toNat = mail.data.length
  fits : mail.data.length ≤ 40
  packed : mail.pktHdr.length = mail.mailHdr.length + 12

def Mail.payload (mail : Mail) : List Byte := mail.mailHdr.bytes ++ mail.data

def Mail.inBox (b : Nat) (mail : Mail) : Bool := mail.mailHdr.dest.toNat == b

/-- The mail that is made of a packet header and a buffer with the packet data. -/
def Mail.ofPayload (pktHdr : PacketHeader) (buffer : List Byte) : Mail :=
  ⟨pktHdr, .ofBytes buffer, bcopy (buffer.drop 12) (MailHeader.ofBytes buffer).length.toNat⟩

def Mail.ofPacket (packet : List Byte) : Mail :=
  .ofPayload (.ofBytes packet) (bcopy (packet.drop 12) (PacketHeader.ofBytes packet).length.toNat)

namespace Mail.Valid
variable {mail : Mail}

theorem packetLength (h : mail.Valid) : mail.pktHdr.length.toNat = mail.payload.length := by
  have hl := h.length
  have hf := h.fits
  rw [h.packed, BitVec.toNat_add, payload, List.length_append, MailHeader.bytes, length_headerBytes,
    ← hl]
  rw [← hl] at hf
  exact (Nat.mod_eq_of_lt (by simp; omega)).trans (Nat.add_comm ..)

theorem packetLength_ne_zero (h : mail.Valid) : mail.pktHdr.length ≠ 0 := by
  intro h0
  have hl := h.packetLength
  rw [h0, payload, List.length_append, MailHeader.bytes, length_headerBytes] at hl
  have hzero : BitVec.toNat (0 : Word) = 0 := rfl
  omega

theorem ofPayload_append (h : mail.Valid) (rest : List Byte) :
    ofPayload mail.pktHdr (mail.payload ++ rest) = mail := by
  have hhdr : MailHeader.ofBytes (mail.payload ++ rest) = mail.mailHdr := by
    rw [payload, List.append_assoc, MailHeader.ofBytes_append]
  rw [ofPayload, hhdr, payload, List.append_assoc,
    List.drop_left' (by simp [MailHeader.bytes]), bcopy_append h.length]

theorem ofPayload_payload (h : mail.Valid) : ofPayload mail.pktHdr mail.payload = mail := by
  simpa using h.ofPayload_append []

theorem ofPacket_wire (h : mail.Valid) : ofPacket (wire mail.pktHdr mail.payload) = mail := by
  rw [ofPacket, PacketHeader.ofBytes_wire, bcopy_drop_wire, bcopy_of_length h.packetLength]
  exact h.ofPayload_payload

end Mail.Valid

end Nachos
