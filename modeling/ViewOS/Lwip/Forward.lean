import ViewOS.Lwip.Frag

namespace ViewOS.Lwip

open OnesSum

inductive Packet where
  | v4 (p : Pbuf4) (version : p.hdr.v = 4)
  | v6 (p : Pbuf6) (version : p.hdr.v = 6)

-- What netif->output gets; `rest` is the packet itself once ip4_frag has moved its payload pointers.
inductive Sent where
  | whole (p : Pbuf4)
  | whole6 (p : Pbuf6)
  | fragment (f : Fragment)
  | rest (totLen : Nat) (chain : List (List UInt8))

inductive Event where
  | output (s : Sent)
  | icmpTimeExceeded
  | icmpDestUnreachFrag
  | icmpPacketTooBig

def Sent.totLen : Sent → Nat
  | .whole p => p.totLen
  | .whole6 p => p.totLen
  | .fragment f => f.totLen
  | .rest totLen _ => totLen

def Sent.bytes : Sent → List UInt8
  | .whole p => p.bytes
  | .whole6 p => p.bytes
  | .fragment f => f.hdr.bytes ++ (f.data ++ f.pad)
  | .rest _ chain => chain.flatten

def Sent.IsFragment : Sent → Prop
  | .fragment _ => True
  | _ => False

def Event.sent? : Event → Option Sent
  | .output s => some s
  | _ => none

def transmitted (es : List Event) : List Sent := es.filterMap Event.sent?

def htons (bigEndian : Bool) (x : Nat) : Nat := if bigEndian then x else swap x

-- The field as the machine holds it, updated there and read back.
def chksumIncr (bigEndian : Bool) (chksum : BitVec 16) : BitVec 16 :=
  let raw := htons bigEndian chksum.toNat
  let raw' :=
    if htons bigEndian (0xffff - 0x100) ≤ raw then (raw + htons bigEndian 0x100 + 1) % 65536
    else (raw + htons bigEndian 0x100) % 65536
  BitVec.ofNat 16 (htons bigEndian raw')

def ipForward4 (bigEndian : Bool) (buf : Nat → UInt8) (mtu : BitVec 16) (p : Pbuf4) :
    Option (List Event) :=
  let hdr := p.hdr.ttlSet (p.hdr.ttl - 1)
  if hdr.ttl = 0 then
    some (if hdr.proto = ipProtoIcmp4 then [] else [.icmpTimeExceeded])
  else
    let p := p.withHdr { hdr with chksum := chksumIncr bigEndian hdr.chksum }
    if mtu.toNat < p.totLen then
      if p.hdr.offset &&& ipMf = 0 then
        (ip4Frag buf mtu.toNat p).map fun r =>
          r.1.map (fun f => Event.output (.fragment f)) ++ [.output (.rest p.totLen r.2)]
      else
        some [.icmpDestUnreachFrag]
    else
      some [.output (.whole p)]

def ipForward6 (mtu : BitVec 16) (p : Pbuf6) : Option (List Event) :=
  let hdr := p.hdr.hoplimitSet (p.hdr.hoplimit - 1)
  if hdr.hoplimit = 0 then
    some (if hdr.nexthdr = ipProtoIcmp then [] else [.icmpTimeExceeded])
  else if mtu.toNat < p.totLen then
    some [.icmpPacketTooBig]
  else
    some [.output (.whole6 (p.withHdr hdr))]

def ipForward (bigEndian : Bool) (buf : Nat → UInt8) (mtu : BitVec 16) :
    Packet → Option (List Event)
  | .v4 p _ => ipForward4 bigEndian buf mtu p
  | .v6 p _ => ipForward6 mtu p

theorem swap_add_one_mod {c r : Nat} (hr : r % 65535 = (swap c + 1) % 65535) :
    swap r % 65535 = (c + 256) % 65535 := by
  have hc : 256 * swap c % 65535 = c % 65535 := by
    have := swap_mod c
    omega
  have hr' : 256 * r % 65535 = (256 * swap c + 256) % 65535 := by omega
  rw [swap_mod r]
  omega

theorem chksumIncr_mod (bigEndian : Bool) (c : BitVec 16) :
    (chksumIncr bigEndian c).toNat % 65535 = (c.toNat + 256) % 65535 := by
  have hc := c.isLt
  cases bigEndian with
  | true =>
    simp only [chksumIncr,htons,if_true,BitVec.toNat_ofNat]
    split_ifs <;> omega
  | false =>
    have h1 : swap (0xffff - 0x100) = 0xfffe := rfl
    have h2 : swap 0x100 = 1 := rfl
    have h3 := swap_lt hc
    simp only [chksumIncr,htons,Bool.false_eq_true,if_false,BitVec.toNat_ofNat,h1,h2]
    rw [Nat.mod_eq_of_lt (swap_lt (by split_ifs <;> omega))]
    apply swap_add_one_mod
    split_ifs <;> omega

end ViewOS.Lwip
