import ViewOS.Lwip.Bitmap
import ViewOS.Lwip.Pbuf

namespace ViewOS.Lwip

def ipReassPoolSize : Nat := 5

def ip4ReassMaxAge : Nat := 5

-- struct ip_reassbuf: hdr is the start of buf, data what follows it, used and lastfrag the flags.
structure Entry where
  ipv : Nat
  id : Nat
  age : Nat
  used : Bool
  lastfrag : Bool
  len : Nat
  hdr : Ip4Hdr
  data : Nat → UInt8
  bitmap : Bitmap

abbrev Pool := Fin ipReassPoolSize → Entry

-- CLEAR_ENTRY leaves buf as it is.
def clearEntry (e : Entry) : Entry :=
  { e with
    ipv := 0
    id := 0
    age := 0
    used := false
    lastfrag := false
    len := 0
    bitmap := fun _ => 0 }

def ipReassTmr (pool : Pool) : Pool := fun i =>
  if (pool i).used then
    let e := { pool i with age := ((pool i).age + 1) % 256 }
    if ip4ReassMaxAge ≤ e.age then clearEntry e else e
  else
    pool i

def entryMatches (e : Entry) (hdr : Ip4Hdr) : Bool :=
  e.ipv = 4 ∧ e.used ∧ e.id = hdr.id.toNat ∧ e.hdr.src = hdr.src ∧ e.hdr.dest = hdr.dest

def entryEmpty (e : Entry) : Bool := e.ipv = 0 ∧ ¬ e.used

def openEntry (e : Entry) (hdr : Ip4Hdr) : Entry :=
  { e with
    used := true
    lastfrag := false
    age := 0
    ipv := 4
    id := hdr.id.toNat
    len := ip4Hlen
    hdr := hdr
    bitmap := fillBitmap (fun _ => 0) 0 ip4Hlen }

def chooseEntry (pool : Pool) (hdr : Ip4Hdr) : Option (Fin ipReassPoolSize × Entry) :=
  match (List.finRange ipReassPoolSize).find? fun pos => entryMatches (pool pos) hdr with
  | some pos => some (pos, pool pos)
  | none =>
    ((List.finRange ipReassPoolSize).find? fun pos => entryEmpty (pool pos)).map fun pos =>
      (pos, openEntry (pool pos) hdr)

-- u32 arithmetic: a total length below the header length wraps round.
def fragLen (hdr : Ip4Hdr) : Nat := (hdr.len.toNat + 4294967296 - hdr.hl * 4) % 4294967296

def fragStart (hdr : Ip4Hdr) : Nat := (hdr.offset &&& ipOffmask).toNat * 8

def fragOffset (hdr : Ip4Hdr) : Nat := ip4Hlen + fragStart hdr

def moreFragments (hdr : Ip4Hdr) : Bool := hdr.offset &&& ipMf ≠ 0

def outside (hdr : Ip4Hdr) : Bool :=
  ipReassBufsize < fragOffset hdr ∨ ipReassBufsize < (fragOffset hdr + fragLen hdr) % 4294967296

def overwrite (data : Nat → UInt8) (start : Nat) (bytes : List UInt8) : Nat → UInt8 := fun j =>
  if start ≤ j then bytes[j - start]?.getD (data j) else data j

def storeBytes (e : Entry) (hdr : Ip4Hdr) (bytes : List UInt8) : Entry :=
  let e := { e with
    data := overwrite e.data (fragStart hdr) bytes
    bitmap := updateBitmap e.bitmap (fragOffset hdr) (fragLen hdr) }
  if moreFragments hdr then e else { e with lastfrag := true, len := fragOffset hdr + fragLen hdr }

theorem storeBytes_bitmap {e : Entry} {hdr : Ip4Hdr} {bytes : List UInt8} :
    (storeBytes e hdr bytes).bitmap = updateBitmap e.bitmap (fragOffset hdr) (fragLen hdr) := by
  rw [storeBytes]
  cases moreFragments hdr <;> rfl

-- none: the copy leaves the packet or buf, or the last byte to mark is past the bitmap.
def storeFragment (e : Entry) (p : Pbuf4) : Option Entry :=
  (copyFromPbuf p.chain (p.hdr.hl * 4) (fragLen p.hdr % 65536)).bind fun r =>
    if ipReassBufsize < fragOffset p.hdr + fragLen p.hdr % 65536 ∨
        ip4ReassBitmapSize ≤ (fragOffset p.hdr + fragLen p.hdr) / 64 then
      none
    else
      some (storeBytes e p.hdr r.data)

structure Reassembled where
  hdr : Ip4Hdr
  payload : List UInt8
deriving DecidableEq

def reassembled (e : Entry) : Reassembled where
  hdr := Ip4Hdr.summed { e.hdr with len := BitVec.ofNat 16 e.len, offset := 0 }
  payload := (List.range (e.len - ip4Hlen)).map e.data

-- alloc says whether pbuf_alloc finds memory for the packet.
def receive (alloc : Bool) (e : Entry) (p : Pbuf4) : Option (Entry × Option Reassembled) :=
  if outside p.hdr then
    some (clearEntry e, none)
  else
    (storeFragment e p).bind fun e =>
      if e.lastfrag then
        (complete e.bitmap e.len).map fun full =>
          if full then (clearEntry e, if alloc then some (reassembled e) else none) else (e, none)
      else
        some (e, none)

def ip4Reass (alloc : Bool) (pool : Pool) (p : Pbuf4) : Option (Pool × Option Reassembled) :=
  match chooseEntry pool p.hdr with
  | none => some (pool, none)
  | some (pos, e) => (receive alloc e p).map fun r => (Function.update pool pos r.1, r.2)

end ViewOS.Lwip
