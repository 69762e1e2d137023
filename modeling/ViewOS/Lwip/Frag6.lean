import ViewOS.Lwip.Frag
import ViewOS.Lwip.Reass

namespace ViewOS.Lwip

-- struct ip6_fraghdr without the reserved byte, which nothing sets or reads.
structure Ip6Fraghdr where
  nexthdr : BitVec 16
  offsetResM : BitVec 16
  id : BitVec 32
deriving DecidableEq

def ip6Offmask : BitVec 16 := 0xfff8

def ip6Mf : BitVec 16 := 0x0001

def ipExtfragLen : Nat := 8

def ip6NexthdrHop : BitVec 16 := 0

def ip6NexthdrDest : BitVec 16 := 60

def ip6NexthdrRouting : BitVec 16 := 43

def ip6NexthdrFragment : BitVec 16 := 44

def Ip6Fraghdr.offset (ext : Ip6Fraghdr) : Nat := (ext.offsetResM &&& ip6Offmask).toNat

def Ip6Fraghdr.m (ext : Ip6Fraghdr) : BitVec 16 := ext.offsetResM &&& ip6Mf

-- A fragment as a pbuf chain; unfrag is what stands between the header and the fragment header.
structure Fragment6 where
  hdr : Ip6Hdr
  unfrag : List UInt8
  ext : Ip6Fraghdr
  head : List UInt8
  next : List (List UInt8)

def Fragment6.unfragpartLen (f : Fragment6) : Nat := ipHlen + f.unfrag.length

-- unfragpart_len never grows, so every round reads the same extension header; a loop that three
-- rounds do not leave is never left.
def extLoop (exthdr : BitVec 16) :
    (rounds : Nat) → (nexthdr : BitVec 16) → (destextNum : Nat) → (lastExthdr : Bool) →
      Option (BitVec 16 × Bool)
  | 0, _, _, _ => none
  | rounds + 1, nexthdr, destextNum, lastExthdr =>
    if nexthdr = ip6NexthdrHop then
      extLoop exthdr rounds exthdr destextNum true
    else if nexthdr = ip6NexthdrDest ∧ destextNum < 1 then
      extLoop exthdr rounds exthdr (destextNum + 1) true
    else if nexthdr = ip6NexthdrRouting then
      extLoop exthdr rounds exthdr destextNum true
    else
      some (nexthdr, lastExthdr)

-- ((mtu - IP_HLEN - IP_EXTFRAG_LEN) >> 3) << 3 of int, kept in a u16.
def fragMaxlen (mtu : Nat) : Nat :=
  if ipHlen + ipExtfragLen ≤ mtu then (mtu - (ipHlen + ipExtfragLen)) / 8 * 8
  else 65536 - (ipHlen + ipExtfragLen - mtu + 7) / 8 * 8

def fragHdr6 (hdr : Ip6Hdr) (nexthdr : BitVec 16) (id : BitVec 32) (offset ncopy : Nat) (last : Bool)
    (data : List UInt8) : Fragment6 where
  hdr := { hdr with len := BitVec.ofNat 16 (ipExtfragLen + ncopy) }
  unfrag := []
  ext :=
    { nexthdr := nexthdr
      offsetResM :=
        if last then BitVec.ofNat 16 (offset / 8 * 8) else BitVec.ofNat 16 (offset / 8 * 8) ||| ip6Mf
      id := id }
  head := data
  next := []

def fragLoop6 (mtu : Nat) (hdr : Ip6Hdr) (nexthdr : BitVec 16) (id : BitVec 32) :
    (fuel : Nat) → (chain : List (List UInt8)) → (poffset left offset : Nat) →
      Option (List Fragment6)
  | 0, _, _, left, _ => if left = 0 then some [] else none
  | fuel + 1, chain, poffset, left, offset =>
    if left = 0 then
      some []
    else
      let last := decide (left ≤ fragMaxlen mtu)
      let ncopy := if last then left else fragMaxlen mtu
      if maxMtu < ipHlen + ipExtfragLen + ncopy then
        none
      else
        (copyFromPbuf chain poffset ncopy).bind fun r =>
          (fragLoop6 mtu hdr nexthdr id fuel r.chain r.offset (left - ncopy)
            ((offset + ncopy) % 65536)).map fun rest =>
              fragHdr6 hdr nexthdr id offset ncopy last r.data :: rest

def setFirst (b : UInt8) : List (List UInt8) → List (List UInt8)
  | (_ :: c) :: cs => (b :: c) :: cs
  | cs => cs

def ip6Frag (ipId : BitVec 32) (mtu : Nat) (p : Pbuf6) : Option (List Fragment6) :=
  (extLoop (BitVec.ofNat 16 (p.payload.headD 0).toNat) 3 p.hdr.nexthdr 0 false).bind fun r =>
    -- The next header of an extension header is written into the packet, not into the copy.
    let hdr := if r.2 then p.hdr else p.hdr.nexthdrSet ip6NexthdrFragment
    let data := if r.2 then setFirst ip6NexthdrFragment.toNat.toUInt8 (p.head :: p.next)
      else p.head :: p.next
    fragLoop6 mtu hdr r.1 ipId (p.totLen - ipHlen) data 0 (p.totLen - ipHlen) 0

structure Entry6 where
  ipv : Nat
  id : Nat
  age : Nat
  used : Bool
  lastfrag : Bool
  len : Nat
  hdr : Ip6Hdr
  data : Nat → UInt8
  bitmap : Bitmap

abbrev Pool6 := Fin ipReassPoolSize → Entry6

def clearEntry6 (e : Entry6) : Entry6 :=
  { e with
    ipv := 0
    id := 0
    age := 0
    used := false
    lastfrag := false
    len := 0
    bitmap := fun _ => 0 }

def entryMatches6 (e : Entry6) (f : Fragment6) : Bool :=
  e.ipv = 6 ∧ e.used ∧ e.id = f.ext.id.toNat ∧ ipAddrCmp e.hdr.src f.hdr.src ∧
    ipAddrCmp e.hdr.dest f.hdr.dest

def entryEmpty6 (e : Entry6) : Bool := e.ipv = 0 ∧ ¬ e.used

-- len is set from unfragpart_len before that has a value; it is not read before it is set again.
def openEntry6 (e : Entry6) (f : Fragment6) : Entry6 :=
  { e with
    ipv := 6
    id := f.ext.id.toNat
    age := 0
    used := true
    lastfrag := false
    hdr := f.hdr
    data := overwrite e.data 0 f.unfrag
    bitmap := fillBitmap (fun _ => 0) 0 f.unfragpartLen }

def chooseEntry6 (pool : Pool6) (f : Fragment6) : Option (Fin ipReassPoolSize × Entry6) :=
  match (List.finRange ipReassPoolSize).find? fun pos => entryMatches6 (pool pos) f with
  | some pos => some (pos, pool pos)
  | none =>
    ((List.finRange ipReassPoolSize).find? fun pos => entryEmpty6 (pool pos)).map fun pos =>
      (pos, openEntry6 (pool pos) f)

def fragLen6 (f : Fragment6) : Nat :=
  (f.hdr.len.toNat + ipHlen + 4294967296 - f.unfragpartLen - ipExtfragLen) % 4294967296

def fragOffset6 (f : Fragment6) : Nat := f.unfragpartLen + f.ext.offset

def outside6 (f : Fragment6) : Bool :=
  ipReassBufsize < fragOffset6 f ∨ ipReassBufsize < (fragOffset6 f + fragLen6 f) % 4294967296

def storeBytes6 (e : Entry6) (f : Fragment6) (bytes : List UInt8) : Entry6 :=
  let e := { e with
    data := overwrite e.data (fragOffset6 f - ipHlen) bytes
    bitmap := updateBitmap e.bitmap (fragOffset6 f) (fragLen6 f) }
  if f.ext.m = 0 then { e with lastfrag := true, len := fragOffset6 f + fragLen6 f } else e

def storeFragment6 (e : Entry6) (f : Fragment6) : Option Entry6 :=
  (copyFromPbuf (f.head :: f.next) 0 (fragLen6 f % 65536)).bind fun r =>
    if ipReassBufsize < fragOffset6 f + fragLen6 f % 65536 ∨
        ip4ReassBitmapSize ≤ (fragOffset6 f + fragLen6 f) / 64 then
      none
    else
      some (storeBytes6 e f r.data)

structure Reassembled6 where
  hdr : Ip6Hdr
  payload : List UInt8
deriving DecidableEq

def reassembled6 (e : Entry6) (ext : Ip6Fraghdr) (lastext : Bool) : Reassembled6 where
  hdr :=
    let hdr := { e.hdr with len := BitVec.ofNat 16 e.len }
    if lastext then hdr else hdr.nexthdrSet ext.nexthdr
  payload := (List.range (e.len - ipHlen)).map e.data

def receive6 (alloc lastext : Bool) (e : Entry6) (f : Fragment6) :
    Option (Entry6 × Option Reassembled6) :=
  if outside6 f then
    some (clearEntry6 e, none)
  else
    (storeFragment6 e f).bind fun e =>
      if e.lastfrag then
        (complete e.bitmap e.len).map fun full =>
          if full then
            (clearEntry6 e, if alloc then some (reassembled6 e f.ext lastext) else none)
          else
            (e, none)
      else
        some (e, none)

-- lastext says whether the caller passes the header before the fragment header or NULL.
def ip6Reass (alloc lastext : Bool) (pool : Pool6) (f : Fragment6) :
    Option (Pool6 × Option Reassembled6) :=
  match chooseEntry6 pool f with
  | none => some (pool, none)
  | some (pos, e) => (receive6 alloc lastext e f).map fun r => (Function.update pool pos r.1, r.2)

end ViewOS.Lwip
