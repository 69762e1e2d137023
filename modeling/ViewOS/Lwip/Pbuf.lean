import ViewOS.Lwip.Header

namespace ViewOS.Lwip

-- A packet as a chain of pbufs: the first one starts with the header, u16 tot_len counts them all.
structure Pbuf4 where
  hdr : Ip4Hdr
  head : List UInt8
  next : List (List UInt8)
  fits : ip4Hlen + (head.length + next.flatten.length) < 65536

def Pbuf4.chain (p : Pbuf4) : List (List UInt8) := (p.hdr.bytes ++ p.head) :: p.next

def Pbuf4.payload (p : Pbuf4) : List UInt8 := p.head ++ p.next.flatten

def Pbuf4.bytes (p : Pbuf4) : List UInt8 := p.hdr.bytes ++ p.payload

def Pbuf4.totLen (p : Pbuf4) : Nat := ip4Hlen + p.payload.length

def Pbuf4.withHdr (p : Pbuf4) (hdr : Ip4Hdr) : Pbuf4 := { p with hdr := hdr }

structure Pbuf6 where
  hdr : Ip6Hdr
  head : List UInt8
  next : List (List UInt8)
  fits : ipHlen + (head.length + next.flatten.length) < 65536

def Pbuf6.payload (p : Pbuf6) : List UInt8 := p.head ++ p.next.flatten

def Pbuf6.bytes (p : Pbuf6) : List UInt8 := p.hdr.bytes ++ p.payload

def Pbuf6.totLen (p : Pbuf6) : Nat := ipHlen + p.payload.length

def Pbuf6.withHdr (p : Pbuf6) (hdr : Ip6Hdr) : Pbuf6 := { p with hdr := hdr }

structure Copied where
  data : List UInt8
  passed : List (List UInt8)
  chain : List (List UInt8)
  offset : Nat

def copyLoop : List (List UInt8) → Nat → Option Copied
  | [], _ => none
  | c :: cs, len =>
    if len ≤ c.length then
      some ⟨c.take len, [], c :: cs, len⟩
    else
      (copyLoop cs (len - c.length)).map fun r =>
        { r with data := c ++ r.data, passed := c :: r.passed }

-- copy_from_pbuf; none where it leaves the chain.
def copyFromPbuf (chain : List (List UInt8)) (offset len : Nat) : Option Copied :=
  match chain with
  | [] => none
  | c :: cs =>
    if c.length < offset then
      none
    else if len = 0 then
      some ⟨[], [], c.drop offset :: cs, offset⟩
    else
      copyLoop (c.drop offset :: cs) len

structure Stands (chain : List (List UInt8)) (offset : Nat) (data : List UInt8) : Prop where
  inside : ∃ c cs, chain = c :: cs ∧ offset ≤ c.length
  ahead : chain.flatten.drop offset = data

theorem Pbuf4.chain_flatten (p : Pbuf4) : p.chain.flatten = p.bytes := by
  rw [Pbuf4.chain,Pbuf4.bytes,Pbuf4.payload,List.flatten_cons,List.append_assoc]

theorem Pbuf4.bytes_length (p : Pbuf4) : p.bytes.length = p.totLen := by
  rw [Pbuf4.bytes,List.length_append,Ip4Hdr.bytes_length,Pbuf4.totLen]

theorem Pbuf4.totLen_lt (p : Pbuf4) : p.totLen < 65536 := by
  have h := p.fits
  rw [Pbuf4.totLen,Pbuf4.payload,List.length_append]
  exact h

theorem Pbuf6.totLen_lt (p : Pbuf6) : p.totLen < 65536 := by
  have h := p.fits
  rw [Pbuf6.totLen,Pbuf6.payload,List.length_append]
  exact h

theorem Pbuf4.stands (p : Pbuf4) : Stands p.chain ip4Hlen p.payload where
  inside := ⟨_,_,rfl,by rw [List.length_append,Ip4Hdr.bytes_length]; omega⟩
  ahead := by rw [p.chain_flatten,Pbuf4.bytes,List.drop_left' p.hdr.bytes_length]

theorem copyLoop_eq_some {cs : List (List UInt8)} {len : Nat} {r : Copied}
    (h : copyLoop cs len = some r) :
    len ≤ cs.flatten.length ∧ r.data = cs.flatten.take len := by
  induction cs generalizing len r with
  | nil => cases h
  | cons c cs ih =>
    rw [copyLoop] at h
    rw [List.flatten_cons,List.length_append]
    split at h
    next hle =>
      cases h
      exact ⟨by omega,by rw [List.take_append_of_le_length hle]⟩
    next hgt =>
      obtain ⟨r',hr',rfl⟩ := Option.map_eq_some_iff.mp h
      obtain ⟨hlen,hdata⟩ := ih hr'
      refine ⟨by omega,?_⟩
      rw [hdata,List.take_append,List.take_of_length_le (by omega : c.length ≤ len)]

theorem copyLoop_stands {cs : List (List UInt8)} {len : Nat} (hne : cs ≠ [])
    (hlen : len ≤ cs.flatten.length) :
    ∃ r, copyLoop cs len = some r ∧ Stands r.chain r.offset (cs.flatten.drop len) := by
  induction cs generalizing len with
  | nil => exact absurd rfl hne
  | cons c cs ih =>
    rw [copyLoop]
    split
    next hle => exact ⟨_,rfl,⟨c,cs,rfl,hle⟩,rfl⟩
    next hgt =>
      rw [List.flatten_cons,List.length_append] at hlen
      have hcs : cs ≠ [] := by
        rintro rfl
        rw [List.flatten_nil,List.length_nil] at hlen
        omega
      obtain ⟨r,hr,hst⟩ := ih hcs (by omega : len - c.length ≤ cs.flatten.length)
      refine ⟨{ r with data := c ++ r.data, passed := c :: r.passed },by rw [hr]; rfl,
        hst.inside,?_⟩
      rw [List.flatten_cons,List.drop_append,List.drop_of_length_le (by omega : c.length ≤ len),
        List.nil_append]
      exact hst.ahead

theorem copyFromPbuf_eq_some {chain : List (List UInt8)} {offset len : Nat} {r : Copied}
    (h : copyFromPbuf chain offset len = some r) :
    len ≤ (chain.flatten.drop offset).length ∧ r.data = (chain.flatten.drop offset).take len := by
  match chain with
  | [] => cases h
  | c :: cs =>
    rw [copyFromPbuf] at h
    split_ifs at h with hc hz
    · cases h
      simp [hz]
    · rw [List.flatten_cons,List.drop_append_of_le_length (by omega)]
      simpa using copyLoop_eq_some h

theorem Stands.copy {chain : List (List UInt8)} {offset len : Nat} {data : List UInt8}
    (h : Stands chain offset data) (hpos : 0 < len) (hlen : len ≤ data.length) :
    ∃ r, copyFromPbuf chain offset len = some r ∧ r.data = data.take len ∧
      Stands r.chain r.offset (data.drop len) := by
  obtain ⟨⟨c,cs,rfl,hc⟩,rfl⟩ := h
  have hflat : (c :: cs).flatten.drop offset = (c.drop offset :: cs).flatten := by
    rw [List.flatten_cons,List.flatten_cons,List.drop_append_of_le_length hc]
  rw [hflat] at hlen ⊢
  obtain ⟨r,hr,hst⟩ := copyLoop_stands (List.cons_ne_nil _ _) hlen
  refine ⟨r,?_,(copyLoop_eq_some hr).2,hst⟩
  rw [copyFromPbuf,if_neg (by omega),if_neg (by omega),hr]

end ViewOS.Lwip
