import ViewOS.Lwip.Inet

namespace ViewOS.Lwip.Icmp6

open OnesSum Inet Userfilter

structure AddrEl where
  ipaddr : IpAddr
  netmask : IpAddr

-- The word the host reads as 1: two macros compare a word with 1 and leave htonl out.
def hostOne (o : HostOrder) : BitVec 32 :=
  match o with
  | .little => 0x01000000
  | .big => 1

def ipAddrIsallnode (o : HostOrder) (addr : IpAddr) : Bool :=
  (addr w0 = 0xff010000 ∨ addr w0 = 0xff020000) ∧ addr w1 = 0 ∧ addr w2 = 0 ∧ addr w3 = hostOne o

def ipAddrIssolicited (o : HostOrder) (addr myaddr : IpAddr) : Bool :=
  addr w0 = 0xff020000 ∧ addr w1 = 0 ∧ addr w2 = hostOne o ∧ addr w3 = myaddr w3 ||| 0xff000000

def ipAddrIsV4broadcast (addr localaddr mask : IpAddr) : Bool :=
  addr w0 = 0 ∧ addr w1 = 0 ∧ addr w2 = ip64Prefix ∧
    addr w3 = localaddr w3 ||| (0xffffffff &&& ~~~ mask w3)

def ipAddrIsDhcpBroadcast (src dest : IpAddr) : Bool :=
  src w3 = 0 ∧ dest w3 = 0xffffffff ∧ src w2 = ip64Prefix ∧ dest w2 = ip64Prefix ∧
    src w0 ||| src w1 ||| dest w0 ||| dest w1 = 0

def deliveryHit (o : HostOrder) (addr sender : IpAddr) (el : AddrEl) : Bool :=
  ipAddrCmp el.ipaddr addr ||
    (ipAddrMaskcmp sender el.ipaddr el.netmask &&
      (ipAddrIsallnode o addr || ipAddrIssolicited o addr el.ipaddr ||
        (ipAddrIsV4comp el.ipaddr && ipAddrIsV4broadcast addr el.ipaddr el.netmask))) ||
    ipAddrIsDhcpBroadcast sender addr

def ipAddrListDeliveryfind (o : HostOrder) (els : List AddrEl) (addr sender : IpAddr) :
    Option AddrEl :=
  els.find? (deliveryHit o addr sender)

structure Message where
  type : UInt8
  icode : UInt8
  chksum : BitVec 16
  body : List UInt8
  rest : List (List UInt8)
  bound : 4 + body.length + rest.flatten.length < 65536

def Message.chain (o : HostOrder) (m : Message) : List (List UInt8) :=
  ([m.type, m.icode] ++ (o.bytes m.chksum ++ m.body)) :: m.rest

def Message.totLen (m : Message) : Nat := 4 + m.body.length + m.rest.flatten.length

def ipProto : BitVec 8 := 58

def icmp6Echo : UInt8 := 128

def icmp6Er : UInt8 := 129

def icmp6Ns : UInt8 := 135

def icmp6Na : UInt8 := 136

def Message.pseudo (o : HostOrder) (m : Message) (src dest : IpAddr) : BitVec 16 :=
  inet6ChksumPseudo o (m.chain o) src dest ipProto (BitVec.ofNat 32 m.totLen)

def Message.fill (o : HostOrder) (m : Message) (src dest : IpAddr) : Message :=
  { m with chksum := Message.pseudo o { m with chksum := 0 } src dest }

structure Sent where
  src : IpAddr
  dest : IpAddr
  msg : Message

def Sent.Verifies (o : HostOrder) (r : Sent) : Prop := r.msg.pseudo o r.src r.dest = 0

def echoInput (o : HostOrder) (inad src dest : IpAddr) (m : Message) : Option Sent :=
  if m.totLen < 8 then none
  else if m.pseudo o src dest ≠ 0 then none
  else
    let er := { m with type := icmp6Er }
    some ⟨inad, src, er.fill o src dest⟩

-- Bytes written past the end of the first pbuf are no part of the message.
def overwrite (body : List UInt8) (pos : Nat) : List UInt8 → List UInt8
  | [] => body
  | b :: bs => overwrite (body.set pos b) (pos + 1) bs

theorem overwrite_length (body : List UInt8) (pos : Nat) (bs : List UInt8) :
    (overwrite body pos bs).length = body.length := by
  induction bs generalizing body pos with
  | nil => rfl
  | cons b bs ih => rw [overwrite,ih,List.length_set]

def targetip (m : Message) : IpAddr := fun i =>
  let byte (k : Nat) := (m.body.getD (4 + 4 * i.val + k) 0).toNat
  BitVec.ofNat 32 (((byte 0 * 256 + byte 1) * 256 + byte 2) * 256 + byte 3)

theorem advertisement_bound (hwaddr : List UInt8) (m : Message) :
    4 + (overwrite (overwrite m.body 0 [7, 0, 0, 0]) 20 (2 :: 1 :: hwaddr)).length +
      m.rest.flatten.length < 65536 := by
  rw [overwrite_length,overwrite_length]
  exact m.bound

-- The flags S, O and R, the reserved bytes, and the option with the link-layer address.
def advertisement (hwaddr : List UInt8) (m : Message) : Message where
  type := icmp6Na
  icode := 0
  chksum := m.chksum
  body := overwrite (overwrite m.body 0 [7, 0, 0, 0]) 20 (2 :: 1 :: hwaddr)
  rest := m.rest
  bound := advertisement_bound hwaddr m

-- ip_output_if is called with dest NULL and reads it when the source is no IPv6 address.
def nsInput (o : HostOrder) (els : List AddrEl) (hwaddr : List UInt8) (inad src dest : IpAddr)
    (m : Message) : Option Sent :=
  if m.totLen < 24 then none
  else if m.pseudo o src dest ≠ 0 then none
  else if (ipAddrListDeliveryfind o els (targetip m) src).isNone then none
  else if ipAddrIsany inad || ipAddrIsV4comp inad then none
  else some ⟨inad, src, (advertisement hwaddr m).fill o inad src⟩

def icmpInput (o : HostOrder) (els : List AddrEl) (hwaddr : List UInt8) (inad src dest : IpAddr)
    (m : Message) : Option Sent :=
  if m.type = icmp6Echo then echoInput o inad src dest m
  else if m.type = icmp6Ns then nsInput o els hwaddr inad src dest m
  else none

variable {o : HostOrder} {m : Message} {src dest : IpAddr}

theorem Message.chain_flatten (m : Message) :
    (m.chain o).flatten = [m.type,m.icode] ++ (o.bytes m.chksum ++ (m.body ++ m.rest.flatten)) := by
  simp [Message.chain]

theorem Message.chain_length (m : Message) : (m.chain o).flatten.length ≤ 65535 := by
  have hbound := m.bound
  rw [m.chain_flatten]
  cases o <;> simp [HostOrder.bytes,octets] at * <;> omega

theorem Message.fill_pseudo (m : Message) (src dest : IpAddr) :
    (m.fill o src dest).pseudo o src dest = 0 := by
  have hzero := @Message.chain_length o { m with chksum := 0 }
  have ha : [m.type,m.icode].length % 2 = 0 := by simp
  exact inet6ChksumPseudo_fill hzero ha (Message.chain_flatten _) rfl (Message.chain_flatten _)

theorem summed_ne_zero (m : Message) (src dest : IpAddr) :
    summed src dest ipProto (BitVec.ofNat 32 m.totLen) (m.chain o).flatten ≠ 0 := by
  have hproto : (lastWords ipProto (BitVec.ofNat 32 m.totLen)).sum ≠ 0 := by
    rw [lastWords,List.sum_cons]
    exact Nat.ne_of_gt (Nat.add_pos_left (by decide) _)
  rw [summed]
  omega

theorem Message.pseudo_eq_zero (m : Message) (src dest : IpAddr) : m.pseudo o src dest = 0 ↔
    summed src dest ipProto (BitVec.ofNat 32 m.totLen) (m.chain o).flatten % 65535 = 0 := by
  rw [Message.pseudo,inet6ChksumPseudo_eq_zero m.chain_length,canon_eq_ones]
  exact and_iff_right (summed_ne_zero m src dest)

theorem Message.fill_pseudo_iff (m : Message) (src dest src' dest' : IpAddr) :
    (m.fill o src dest).pseudo o src' dest' = 0 ↔
      addrSum src' dest' % 65535 = addrSum src dest % 65535 := by
  have hown := (Message.pseudo_eq_zero _ _ _).mp (@Message.fill_pseudo o m src dest)
  rw [Message.pseudo_eq_zero]
  rw [summed] at hown ⊢
  omega

theorem echoInput_eq {inad : IpAddr} {r : Sent} (h : echoInput o inad src dest m = some r) :
    r = ⟨inad, src, Message.fill o { m with type := icmp6Er } src dest⟩ := by
  rw [echoInput] at h
  split_ifs at h
  exact (Option.some.inj h).symm

theorem nsInput_eq {els : List AddrEl} {hwaddr : List UInt8} {inad : IpAddr} {r : Sent}
    (h : nsInput o els hwaddr inad src dest m = some r) :
    r = ⟨inad, src, (advertisement hwaddr m).fill o inad src⟩ := by
  rw [nsInput] at h
  split_ifs at h
  exact (Option.some.inj h).symm

theorem icmpInput_verifies_iff (o : HostOrder) (els : List AddrEl) (hwaddr : List UInt8)
    (inad src dest : IpAddr) (m : Message) (r : Sent)
    (h : icmpInput o els hwaddr inad src dest m = some r) :
    r.Verifies o ↔ (m.type = icmp6Echo → addrSum inad src % 65535 = addrSum src dest % 65535) := by
  rw [icmpInput] at h
  split_ifs at h with hecho
  · rw [echoInput_eq h]
    exact (Message.fill_pseudo_iff _ _ _ _ _).trans (true_imp_iff.symm.trans (by simp [hecho]))
  · rw [nsInput_eq h]
    exact iff_of_true (Message.fill_pseudo _ _ _) fun he => absurd he hecho

-- ff02::1, the addresses fe80::1 and fe80::2, and the netmask of 64 bits.
def allNodes : IpAddr := ![0xff020000, 0, 0, 1]

def linkLocal (n : BitVec 32) : IpAddr := ![0xfe800000, 0, 0, n]

def linkMask : IpAddr := ![0xffffffff, 0xffffffff, 0, 0]

theorem ping_bound : 4 + [0, 1, 0, 1].length + ([] : List (List UInt8)).flatten.length < 65536 := by
  decide

def ping (dest : IpAddr) : Message :=
  Message.fill .big ⟨icmp6Echo, 0, 0, [0, 1, 0, 1], [], ping_bound⟩ (linkLocal 2) dest

theorem icmpInput_ping (dest : IpAddr) : icmpInput .big [⟨linkLocal 1, linkMask⟩] [] (linkLocal 1)
    (linkLocal 2) dest (ping dest) = some ⟨linkLocal 1, linkLocal 2,
      Message.fill .big { ping dest with type := icmp6Er } (linkLocal 2) dest⟩ := by
  have hvalid : (ping dest).pseudo .big (linkLocal 2) dest = 0 := Message.fill_pseudo _ _ _
  have hlen : ¬(ping dest).totLen < 8 := Nat.lt_irrefl 8
  have htype : (ping dest).type = icmp6Echo := rfl
  rw [icmpInput,if_pos htype,echoInput,if_neg hlen,if_neg (not_not.mpr hvalid)]

theorem icmpInput_verifies_unicast : Sent.Verifies .big ⟨linkLocal 1, linkLocal 2,
      Message.fill .big { ping (linkLocal 1) with type := icmp6Er } (linkLocal 2) (linkLocal 1)⟩ :=
  (icmpInput_verifies_iff _ _ _ _ _ _ _ _ (icmpInput_ping (linkLocal 1))).mpr fun _ => by decide

theorem icmpInput_multicast_ping : ¬∀ (o : HostOrder) (els : List AddrEl) (hwaddr : List UInt8)
    (el : AddrEl) (src dest : IpAddr) (m : Message) (r : Sent),
    ipAddrListDeliveryfind o els dest src = some el →
    icmpInput o els hwaddr el.ipaddr src dest m = some r → r.Verifies o := by
  intro hall
  have hsent := hall .big [⟨linkLocal 1, linkMask⟩] [] ⟨linkLocal 1, linkMask⟩ (linkLocal 2) allNodes
    (ping allNodes) _ (by rfl) (icmpInput_ping allNodes)
  have hsum := (Message.fill_pseudo_iff _ _ _ _ _).mp hsent
  exact absurd hsum (by decide)

end ViewOS.Lwip.Icmp6
