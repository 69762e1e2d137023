import ViewOS.Userfilter.Packet

namespace ViewOS.Lwip.Inet

open OnesSum Userfilter

def swapBytes (acc : Nat) : Nat := ((acc &&& 0xff) <<< 8) ||| ((acc &&& 0xff00) >>> 8)

-- The expression of inet_chksum_pbuf; << and >> bind tighter than &.
def keepBytes (acc : Nat) : Nat := (acc &&& 0xff <<< 8) ||| (acc &&& 0xff00 >>> 8)

-- One pbuf: acc and swapped.
def addPbuf (o : HostOrder) (odd : Nat → Nat) (st : Nat × Bool) (q : List UInt8) : Nat × Bool :=
  let acc := wrap ((st.1 + chksum o q) % 4294967296)
  if q.length % 2 ≠ 0 then (odd acc, !st.2) else (acc, st.2)

def sumPbufs (o : HostOrder) (odd : Nat → Nat) (p : List (List UInt8)) : Nat :=
  let st := p.foldl (addPbuf o odd) (0, false)
  if st.2 then swapBytes st.1 else st.1

-- The 16-bit words of an address from the given one on.
def addrWords (addr : IpAddr) (first : Nat) : List Nat :=
  ((ipAddrWords addr).map BitVec.toNat).drop first

def hostWords (o : HostOrder) (addr : IpAddr) (first : Nat) : List Nat :=
  (addrWords addr first).map o.htons

def addAddrs (acc : Nat) (w : Nat × Nat) : Nat := wrap (acc + w.1 + w.2)

def inet6ChksumPseudo (o : HostOrder) (p : List (List UInt8)) (src dest : IpAddr) (proto : BitVec 8)
    (protoLen : BitVec 32) : BitVec 16 :=
  let first := if ipAddrIsV4comp src then 6 else 0
  let acc := ((hostWords o src first).zip (hostWords o dest first)).foldl addAddrs
    (sumPbufs o swapBytes p)
  let acc := acc + o.htons proto.toNat + o.htons (protoLen.toNat % 65536) +
    o.htons (protoLen.toNat / 65536)
  ~~~ BitVec.ofNat 16 (wrap acc)

def inetChksumPbuf (o : HostOrder) (p : List (List UInt8)) : BitVec 16 :=
  ~~~ BitVec.ofNat 16 (sumPbufs o keepBytes p)

def total (data : List UInt8) : Nat := (halfwords data).sum

variable {o : HostOrder} {data : List UInt8} {acc : Nat}

theorem swapBytes_eq (h : acc < 65536) : swapBytes acc = swap acc := by
  have hlow : acc &&& 0xff = acc % 256 := Nat.and_two_pow_sub_one_eq_mod acc 8
  have hhigh : (acc &&& 0xff00) >>> 8 = acc / 256 := by
    rw [Nat.shiftRight_and_distrib,Nat.shiftRight_eq_div_pow]
    have hand : acc / 2 ^ 8 &&& 0xff = acc / 2 ^ 8 % 256 := Nat.and_two_pow_sub_one_eq_mod _ 8
    change acc / 2 ^ 8 &&& 0xff = _
    rw [hand]
    omega
  rw [swapBytes,hlow,hhigh,← Nat.shiftLeft_add_eq_or_of_lt (by omega),Nat.shiftLeft_eq,swap]

theorem keepBytes_eq (h : acc < 65536) : keepBytes acc = acc := by
  have hall : acc &&& 0xffff = acc % 65536 := Nat.and_two_pow_sub_one_eq_mod acc 16
  change (acc &&& 0xff00) ||| (acc &&& 0xff) = acc
  rw [← Nat.and_or_distrib_left]
  change acc &&& 0xffff = acc
  omega

theorem htons_lt {w : Nat} (h : w < 65536) : o.htons w < 65536 := by
  cases o with
  | little => exact swap_lt h
  | big => exact h

theorem htons_mod (w : Nat) : o.htons w % 65535 = o.weight * w % 65535 := by
  cases o with
  | little => exact swap_mod w
  | big => rw [HostOrder.weight,one_mul]; rfl

theorem htons_eq_zero {w : Nat} (h : w < 65536) : o.htons w = 0 ↔ w = 0 := by
  cases o with
  | little => exact swap_eq_zero h
  | big => exact Iff.rfl

theorem total_cons (x : UInt8) (data : List UInt8) :
    total (x :: data) % 65535 = (256 * x.toNat + 256 * total data) % 65535 := by
  induction data generalizing x with
  | nil => simp [total,halfwords,mul_comm]
  | cons y data ih =>
    have hy := ih y
    have hxy : total (x :: y :: data) = x.toNat * 256 + y.toNat + total data := by
      simp [total,halfwords]
    omega

theorem total_append (a b : List UInt8) : total (a ++ b) % 65535 =
    (total a + if a.length % 2 = 0 then total b else 256 * total b) % 65535 := by
  induction a using halfwords.induct with
  | case1 hi lo a ih =>
    have hcons : ∀ c, total (hi :: lo :: c) = hi.toNat * 256 + lo.toNat + total c := fun c => by
      simp [total,halfwords]
    have hlen : (hi :: lo :: a).length % 2 = a.length % 2 := by
      rw [List.length_cons,List.length_cons]
      omega
    rw [List.cons_append,List.cons_append,hcons,hcons,hlen]
    omega
  | case2 x =>
    have hx : total [x] = x.toNat * 256 := by simp [total,halfwords]
    rw [List.singleton_append,total_cons,hx]
    simp [mul_comm]
  | case3 => simp [total,halfwords]

theorem total_eq_zero : total data = 0 ↔ ∀ b ∈ data, b.toNat = 0 := by
  induction data using halfwords.induct with
  | case1 hi lo data ih =>
    rw [total] at ih ⊢
    rw [List.forall_mem_cons,List.forall_mem_cons,← ih,halfwords,List.sum_cons]
    omega
  | case2 x => simp [total,halfwords]
  | case3 => simp [total,halfwords]

theorem total_append_eq_zero (a b : List UInt8) :
    total (a ++ b) = 0 ↔ total a = 0 ∧ total b = 0 := by
  rw [total_eq_zero,total_eq_zero,total_eq_zero,List.forall_mem_append]

def hostSum (o : HostOrder) (ws : List Nat) : Nat := (ws.map o.htons).sum

theorem hostSum_mod (ws : List Nat) : hostSum o ws % 65535 = o.weight * ws.sum % 65535 := by
  induction ws with
  | nil => rfl
  | cons w ws ih =>
    have hw := @htons_mod o w
    have hsum : hostSum o (w :: ws) = o.htons w + hostSum o ws := List.sum_cons
    rw [List.sum_cons,mul_add,hsum]
    omega

theorem hostSum_eq_zero {ws : List Nat} (h : ∀ w ∈ ws, w < 65536) :
    hostSum o ws = 0 ↔ ws.sum = 0 := by
  induction ws with
  | nil => exact Iff.rfl
  | cons w ws ih =>
    rw [List.forall_mem_cons] at h
    have hw := @htons_eq_zero o w h.1
    have hs := ih h.2
    have hsum : hostSum o (w :: ws) = o.htons w + hostSum o ws := List.sum_cons
    rw [List.sum_cons,hsum]
    omega

theorem hostSum_append (ws vs : List Nat) :
    hostSum o (ws ++ vs) = hostSum o ws + hostSum o vs := by
  rw [hostSum,List.map_append,List.sum_append]
  rfl

theorem htons_canon {ws : List Nat} (h : ∀ w ∈ ws, w < 65536) :
    o.htons (canon ws.sum) = canon (hostSum o ws) := by
  have hcanon := canon_lt ws.sum
  have hmod := canon_mod ws.sum
  apply eq_canon (htons_lt hcanon)
  · rw [htons_mod,hostSum_mod,Nat.mul_mod,hmod,← Nat.mul_mod]
  · rw [htons_eq_zero hcanon,canon_eq_zero,hostSum_eq_zero h]

theorem hostSum_le (h : data.length ≤ 65535) : hostSum o (halfwords data) ≤ 65535 * 32768 := by
  have hlt : ∀ w ∈ (halfwords data).map o.htons, w < 65536 := by
    intro w hw
    obtain ⟨v,hv,rfl⟩ := List.mem_map.mp hw
    exact htons_lt (halfwords_lt data v hv)
  have hle := sum_le hlt
  rw [List.length_map,halfwords_length] at hle
  change hostSum o (halfwords data) ≤ _ at hle
  omega

theorem chksum_eq (h : data.length ≤ 65535) : chksum o data = hostSum o (halfwords data) := by
  have hle := @hostSum_le o data h
  exact Nat.mod_eq_of_lt (by change hostSum o (halfwords data) < _; omega)

def flat (o : HostOrder) (data : List UInt8) : Nat := canon (hostSum o (halfwords data))

theorem flat_lt : flat o data < 65536 := canon_lt _

theorem flat_mod : flat o data % 65535 = o.weight * total data % 65535 :=
  (canon_mod _).trans (hostSum_mod _)

theorem flat_eq_zero : flat o data = 0 ↔ total data = 0 :=
  canon_eq_zero.trans (hostSum_eq_zero (halfwords_lt data))

theorem wrap_chksum (hacc : acc < 65536) (h : data.length ≤ 65535) :
    wrap ((acc + chksum o data) % 4294967296) = canon (acc + flat o data) := by
  have hle := @hostSum_le o data h
  rw [chksum_eq h,Nat.mod_eq_of_lt (by omega),wrap_eq,add_comm acc,add_comm acc]
  exact (canon_add _ _).symm

theorem flat_append (a b : List UInt8) : flat o (a ++ b) % 65535 =
    (flat o a + if a.length % 2 = 0 then flat o b else 256 * flat o b) % 65535 := by
  have hab := total_append a b
  have ha := @flat_mod o a
  have hb := @flat_mod o b
  rw [flat_mod]
  cases o <;> simp only [HostOrder.weight] at * <;> split_ifs at * <;> omega

theorem flat_append_eq_zero (a b : List UInt8) :
    flat o (a ++ b) = 0 ↔ flat o a = 0 ∧ flat o b = 0 := by
  rw [flat_eq_zero,flat_eq_zero,flat_eq_zero,total_append_eq_zero]

-- After the bytes of data: the sum, its bytes swapped when their number is odd.
def seen (o : HostOrder) (data : List UInt8) : Nat × Bool :=
  if data.length % 2 = 0 then (flat o data, false) else (swap (flat o data), true)

theorem addPbuf_seen (q : List UInt8) (h : q.length ≤ 65535) :
    addPbuf o swapBytes (seen o data) q = seen o (data ++ q) := by
  have hmod := @flat_append o data q
  have hzero := @flat_append_eq_zero o data q
  have hlt := @flat_lt o data
  have hswap := swap_mod (flat o data)
  have hswap0 := swap_eq_zero hlt
  have hseen : (seen o data).1 < 65536 := by
    rw [seen]
    split_ifs
    · exact hlt
    · exact swap_lt hlt
  have hacc : canon ((seen o data).1 + flat o q) =
      if data.length % 2 = 0 then flat o (data ++ q) else swap (flat o (data ++ q)) := by
    symm
    have happ := @flat_lt o (data ++ q)
    have happ0 := swap_eq_zero happ
    have hsw := swap_mod (flat o (data ++ q))
    rw [seen]
    split_ifs at * with hd
    · exact eq_canon happ (by omega) (by omega)
    · exact eq_canon (swap_lt happ) (by omega) (by omega)
  have hback : swap (swap (flat o (data ++ q))) = flat o (data ++ q) := swap_swap flat_lt
  rw [addPbuf,wrap_chksum hseen h,swapBytes_eq (canon_lt _),hacc,seen,seen,List.length_append,
    Nat.add_mod]
  rcases Nat.mod_two_eq_zero_or_one data.length with hd | hd
  · rcases Nat.mod_two_eq_zero_or_one q.length with hq | hq
    · simp [hd,hq]
    · simp [hd,hq]
  · rcases Nat.mod_two_eq_zero_or_one q.length with hq | hq
    · simp [hd,hq]
    · simp [hd,hq,hback]

theorem sumPbufs_swapBytes {p : List (List UInt8)} (h : p.flatten.length ≤ 65535) :
    sumPbufs o swapBytes p = flat o p.flatten := by
  have hrun : ∀ data, p.foldl (addPbuf o swapBytes) (seen o data) = seen o (data ++ p.flatten) := by
    induction p with
    | nil => simp
    | cons q p ih =>
      intro data
      rw [List.flatten_cons,List.length_append] at h
      rw [List.foldl_cons,addPbuf_seen q (by omega),ih (by omega),List.flatten_cons,
        List.append_assoc]
  have hall : p.foldl (addPbuf o swapBytes) (0, false) = seen o p.flatten := hrun []
  rw [sumPbufs,hall,seen]
  rcases Nat.mod_two_eq_zero_or_one p.flatten.length with hp | hp
  · rw [if_pos hp]
    rfl
  · have hodd : ¬p.flatten.length % 2 = 0 := by omega
    rw [if_neg hodd]
    change swapBytes (swap (flat o p.flatten)) = _
    rw [swapBytes_eq (swap_lt flat_lt),swap_swap flat_lt]

-- What the loop of inet_chksum_pbuf adds up: the sums of the segments, whatever their offsets.
def segmentSum (p : List (List UInt8)) : Nat := (p.map total).sum

-- The sums of the segments whose offset in the chain has the given parity.
def offsetSum (parity : Nat) : Nat → List (List UInt8) → Nat
  | _, [] => 0
  | off, q :: p => (if off % 2 = parity then total q else 0) + offsetSum parity (off + q.length) p

theorem segmentSum_eq (off : Nat) (p : List (List UInt8)) :
    segmentSum p = offsetSum 0 off p + offsetSum 1 off p := by
  induction p generalizing off with
  | nil => rfl
  | cons q p ih =>
    have hcons : segmentSum (q :: p) = total q + segmentSum p := List.sum_cons
    rw [hcons,ih (off + q.length),offsetSum,offsetSum]
    split_ifs <;> omega

theorem total_flatten (off : Nat) (p : List (List UInt8)) :
    (if off % 2 = 0 then total p.flatten else 256 * total p.flatten) % 65535 =
      (offsetSum 0 off p + 256 * offsetSum 1 off p) % 65535 := by
  induction p generalizing off with
  | nil => simp [total,halfwords,offsetSum]
  | cons q p ih =>
    have happ := total_append q p.flatten
    have hp := ih (off + q.length)
    rw [List.flatten_cons,offsetSum,offsetSum]
    split_ifs at * <;> omega

theorem foldl_keepBytes {p : List (List UInt8)} {st : Nat × Bool} (hst : st.1 < 65536)
    (h : p.flatten.length ≤ 65535) : p.foldl (addPbuf o keepBytes) st =
      (canon (st.1 + (p.map (flat o)).sum), st.2 ^^ decide (p.flatten.length % 2 = 1)) := by
  induction p generalizing st with
  | nil => simp [canon_of_lt hst]
  | cons q p ih =>
    rw [List.flatten_cons,List.length_append] at h
    have hstep : addPbuf o keepBytes st q =
        (canon (st.1 + flat o q), st.2 ^^ decide (q.length % 2 = 1)) := by
      rw [addPbuf,wrap_chksum hst (by omega),keepBytes_eq (canon_lt _)]
      split_ifs with hodd
      · rw [decide_eq_true (by omega),Bool.xor_true]
      · rw [decide_eq_false (by omega),Bool.xor_false]
    have hpar : decide ((q.length + p.flatten.length) % 2 = 1) =
        (decide (q.length % 2 = 1) ^^ decide (p.flatten.length % 2 = 1)) := by
      rcases Nat.mod_two_eq_zero_or_one q.length with hq | hq
      · rw [decide_eq_false (p := q.length % 2 = 1) (by omega),Bool.false_xor,decide_eq_decide]
        omega
      · rw [decide_eq_true hq,Bool.true_xor,← decide_not,decide_eq_decide]
        omega
    rw [List.foldl_cons,hstep,ih (canon_lt _) (by omega),List.map_cons,List.sum_cons,canon_add,
      add_assoc,Bool.xor_assoc,← hpar,List.flatten_cons,List.length_append]

theorem sum_flat_mod (p : List (List UInt8)) :
    (p.map (flat o)).sum % 65535 = o.weight * segmentSum p % 65535 := by
  induction p with
  | nil => rfl
  | cons q p ih =>
    have hq := @flat_mod o q
    have hcons : segmentSum (q :: p) = total q + segmentSum p := List.sum_cons
    rw [List.map_cons,List.sum_cons,hcons,mul_add]
    omega

theorem sum_flat_eq_zero (p : List (List UInt8)) :
    (p.map (flat o)).sum = 0 ↔ total p.flatten = 0 := by
  induction p with
  | nil => exact Iff.rfl
  | cons q p ih =>
    rw [List.flatten_cons,total_append_eq_zero,List.map_cons,List.sum_cons,← ih,
      ← @flat_eq_zero o q]
    omega

theorem inetChksum_eq (h : data.length ≤ 65535) :
    inetChksum o data = ~~~ BitVec.ofNat 16 (flat o data) := by
  have hle := @hostSum_le o data h
  rw [inetChksum,chksum_eq h,fold_eq (by omega)]
  rfl

theorem complement_inj {x y : Nat} (hx : x < 65536) (hy : y < 65536) :
    ~~~ BitVec.ofNat 16 x = ~~~ BitVec.ofNat 16 y ↔ x = y := by
  rw [BitVec.not_inj,BitVec.toNat_inj.symm,BitVec.toNat_ofNat,BitVec.toNat_ofNat]
  omega

theorem inetChksumPbuf_eq_iff (o : HostOrder) (p : List (List UInt8))
    (h : p.flatten.length ≤ 65535) :
    inetChksumPbuf o p = inetChksum o p.flatten ↔
      257 ∣ offsetSum ((p.flatten.length + 1) % 2) 0 p := by
  have hsum := canon_lt (p.map (flat o)).sum
  have hmod := (canon_mod _).trans (@sum_flat_mod o p)
  have hzero := canon_eq_zero.trans (@sum_flat_eq_zero o p)
  have hflat := @flat_lt o p.flatten
  have hfmod := @flat_mod o p.flatten
  have hfzero := @flat_eq_zero o p.flatten
  have htotal : total p.flatten % 65535 = (offsetSum 0 0 p + 256 * offsetSum 1 0 p) % 65535 :=
    total_flatten 0 p
  have hseg := segmentSum_eq 0 p
  have hfold := @foldl_keepBytes o p (0, false) (by decide) h
  rw [inetChksum_eq h,inetChksumPbuf,sumPbufs,hfold]
  dsimp only
  rw [zero_add,Bool.false_xor]
  generalize canon (p.map (flat o)).sum = acc at *
  rcases Nat.mod_two_eq_zero_or_one p.flatten.length with hp | hp
  · rw [decide_eq_false (by omega),if_neg (by decide),complement_inj hsum hflat,
      eq_iff_mod hsum hflat (hzero.trans hfzero.symm),(by omega : (p.flatten.length + 1) % 2 = 1)]
    cases o <;> simp only [HostOrder.weight] at * <;> omega
  · have hswap := swap_mod acc
    have hswapz := swap_eq_zero hsum
    rw [decide_eq_true hp,if_pos rfl,swapBytes_eq hsum,complement_inj (swap_lt hsum) hflat,
      eq_iff_mod (swap_lt hsum) hflat (hswapz.trans (hzero.trans hfzero.symm)),
      (by omega : (p.flatten.length + 1) % 2 = 0)]
    cases o <;> simp only [HostOrder.weight] at * <;> omega

theorem inetChksumPbuf_split : inetChksumPbuf .little [[7], [1, 1, 2, 2], [2, 5, 3]] =
    inetChksum .little [7, 1, 1, 2, 2, 2, 5, 3] :=
  (inetChksumPbuf_eq_iff .little [[7], [1, 1, 2, 2], [2, 5, 3]] (by decide)).mpr (by decide)

theorem inetChksumPbuf_ne_inetChksum : ¬∀ (o : HostOrder) (p : List (List UInt8)),
    p.flatten.length ≤ 65535 → inetChksumPbuf o p = inetChksum o p.flatten := by
  intro hall
  have hone := hall .little [[1]] (by decide)
  simp only [inetChksumPbuf,sumPbufs,List.foldl_cons,List.foldl_nil,addPbuf,wrap_eq] at hone
  exact absurd hone (by decide)

-- The words inet6_chksum_pseudo adds to the bytes; the form of the source decides for both.
def addrSum (src dest : IpAddr) : Nat :=
  (addrWords src (if ipAddrIsV4comp src then 6 else 0)).sum +
    (addrWords dest (if ipAddrIsV4comp src then 6 else 0)).sum

def lastWords (proto : BitVec 8) (protoLen : BitVec 32) : List Nat :=
  [proto.toNat, protoLen.toNat % 65536, protoLen.toNat / 65536]

def summed (src dest : IpAddr) (proto : BitVec 8) (protoLen : BitVec 32) (data : List UInt8) : Nat :=
  addrSum src dest + (lastWords proto protoLen).sum + total data

def pseudoHeader (src dest : IpAddr) (proto : BitVec 8) (protoLen : BitVec 32) : List Nat :=
  addrWords src (if ipAddrIsV4comp src then 6 else 0) ++
    (addrWords dest (if ipAddrIsV4comp dest then 6 else 0) ++ lastWords proto protoLen)

section Pseudo

variable {src dest : IpAddr} {proto : BitVec 8} {protoLen : BitVec 32} {p : List (List UInt8)}

theorem addrWords_lt (addr : IpAddr) (first : Nat) : ∀ w ∈ addrWords addr first, w < 65536 := by
  intro w hw
  obtain ⟨v,-,rfl⟩ := List.mem_map.mp (List.mem_of_mem_drop hw)
  exact v.isLt

theorem addrWords_length (addr : IpAddr) (first : Nat) : (addrWords addr first).length = 8 - first := by
  rw [addrWords,List.length_drop,List.length_map]
  rfl

theorem lastWords_lt : ∀ w ∈ lastWords proto protoLen, w < 65536 := by
  have hproto := proto.isLt
  have hlen := protoLen.isLt
  intro w hw
  simp only [lastWords,List.mem_cons,List.not_mem_nil,or_false] at hw
  omega

theorem pseudoHeader_lt : ∀ w ∈ pseudoHeader src dest proto protoLen, w < 65536 :=
  List.forall_mem_append.mpr ⟨addrWords_lt _ _,List.forall_mem_append.mpr
    ⟨addrWords_lt _ _,lastWords_lt⟩⟩

theorem summed_eq (hv : ipAddrIsV4comp src = ipAddrIsV4comp dest) :
    summed src dest proto protoLen data =
      (pseudoHeader src dest proto protoLen ++ halfwords data).sum := by
  rw [summed,addrSum,pseudoHeader,hv,List.sum_append,List.sum_append,List.sum_append,total]
  omega

theorem foldl_addAddrs {ws vs : List Nat} (hlen : ws.length = vs.length) (hacc : acc < 65536) :
    (ws.zip vs).foldl addAddrs acc = canon (acc + (ws.sum + vs.sum)) := by
  induction ws generalizing vs acc with
  | nil =>
    rw [List.length_eq_zero_iff.mp hlen.symm]
    exact (canon_of_lt hacc).symm
  | cons w ws ih =>
    match vs with
    | v :: vs =>
      have hnext : addAddrs acc (w, v) = canon (acc + w + v) := wrap_eq _
      rw [List.zip_cons_cons,List.foldl_cons,hnext,ih (Nat.succ_inj.mp hlen) (canon_lt _),
        canon_add,List.sum_cons,List.sum_cons]
      congr 1
      omega

theorem htons_complement {w : Nat} (h : w < 65536) :
    o.htons (65535 - o.htons w) = 65535 - w := by
  cases o with
  | little =>
    change swap (65535 - swap w) = _
    rw [swap,swap]
    omega
  | big => rfl

theorem inet6ChksumPseudo_eq (h : p.flatten.length ≤ 65535) :
    inet6ChksumPseudo o p src dest proto protoLen = ~~~ BitVec.ofNat 16
      (o.htons (canon (summed src dest proto protoLen p.flatten))) := by
  obtain ⟨first,hfirst⟩ : ∃ n, (if ipAddrIsV4comp src then 6 else 0) = n := ⟨_,rfl⟩
  have hlt : ∀ w ∈ addrWords src first ++ (addrWords dest first ++
      (lastWords proto protoLen ++ halfwords p.flatten)), w < 65536 :=
    List.forall_mem_append.mpr ⟨addrWords_lt _ _,List.forall_mem_append.mpr ⟨addrWords_lt _ _,
      List.forall_mem_append.mpr ⟨lastWords_lt,halfwords_lt _⟩⟩⟩
  have hlen : (hostWords o src first).length = (hostWords o dest first).length := by
    rw [hostWords,hostWords,List.length_map,List.length_map,addrWords_length,addrWords_length]
  have hsum : summed src dest proto protoLen p.flatten = (addrWords src first ++ (addrWords dest first
      ++ (lastWords proto protoLen ++ halfwords p.flatten))).sum := by
    rw [summed,addrSum,hfirst,total,List.sum_append,List.sum_append,List.sum_append,add_assoc,
      add_assoc]
  have hlast : hostSum o (lastWords proto protoLen) =
      o.htons proto.toNat + (o.htons (protoLen.toNat % 65536) +
        o.htons (protoLen.toNat / 65536)) := rfl
  rw [hsum,htons_canon hlt,inet6ChksumPseudo,sumPbufs_swapBytes h,hfirst,foldl_addAddrs hlen flat_lt,
    wrap_eq,flat,hostSum_append,hostSum_append,hostSum_append,hlast]
  simp only [canon_add,add_assoc]
  rw [add_comm (hostSum o (halfwords p.flatten))]
  simp only [add_assoc]
  rfl

theorem inet6ChksumPseudo_toNat (h : p.flatten.length ≤ 65535) :
    o.htons (inet6ChksumPseudo o p src dest proto protoLen).toNat =
      65535 - canon (summed src dest proto protoLen p.flatten) := by
  have hcanon := canon_lt (summed src dest proto protoLen p.flatten)
  have hhost := @htons_lt o _ hcanon
  rw [inet6ChksumPseudo_eq h,BitVec.toNat_not,BitVec.toNat_ofNat,Nat.mod_eq_of_lt hhost]
  exact htons_complement hcanon

theorem inet6ChksumPseudo_eq_zero (h : p.flatten.length ≤ 65535) :
    inet6ChksumPseudo o p src dest proto protoLen = 0 ↔
      canon (summed src dest proto protoLen p.flatten) = 65535 := by
  have hvalue := @inet6ChksumPseudo_toNat o src dest proto protoLen p h
  have hcanon := canon_lt (summed src dest proto protoLen p.flatten)
  have hzero := @htons_eq_zero o _ (inet6ChksumPseudo o p src dest proto protoLen).isLt
  rw [← BitVec.toNat_inj]
  change _ = 0 ↔ _
  omega

theorem halfwords_append {a : List UInt8} (h : a.length % 2 = 0) (b : List UInt8) :
    halfwords (a ++ b) = halfwords a ++ halfwords b := by
  induction a using halfwords.induct with
  | case1 hi lo a ih =>
    rw [List.length_cons,List.length_cons] at h
    rw [List.cons_append,List.cons_append,halfwords,halfwords,ih (by omega),List.cons_append]
  | case2 x => exact absurd h (by simp)
  | case3 => rfl

theorem halfwords_bytes (v : BitVec 16) (b : List UInt8) :
    halfwords (o.bytes v ++ b) = o.htons v.toNat :: halfwords b := by
  cases o with
  | little =>
    have hv := v.isLt
    have hval : v.toNat % 256 * 256 + v.toNat / 256 % 256 = HostOrder.little.htons v.toNat := by
      rw [HostOrder.htons,swap]
      omega
    simpa [HostOrder.bytes,octets,halfwords] using hval
  | big => exact halfwords_octets v b

theorem total_field {a b : List UInt8} (h : a.length % 2 = 0) (v : BitVec 16) :
    total (a ++ (o.bytes v ++ b)) = total (a ++ (o.bytes 0 ++ b)) + o.htons v.toNat := by
  have hzero : o.htons (0 : BitVec 16).toNat = 0 := by
    cases o <;> rfl
  rw [total,total,halfwords_append h,halfwords_append h,halfwords_bytes,halfwords_bytes,
    List.sum_append,List.sum_append,List.sum_cons,List.sum_cons,hzero]
  omega

theorem inet6ChksumPseudo_fill {a b : List UInt8} {q : List (List UInt8)} {v : BitVec 16}
    (h : p.flatten.length ≤ 65535) (ha : a.length % 2 = 0)
    (hp : p.flatten = a ++ (o.bytes 0 ++ b))
    (hfill : v = inet6ChksumPseudo o p src dest proto protoLen)
    (hq : q.flatten = a ++ (o.bytes v ++ b)) :
    inet6ChksumPseudo o q src dest proto protoLen = 0 := by
  have hlen : q.flatten.length = p.flatten.length := by
    rw [hp,hq]
    cases o <;> simp [HostOrder.bytes,octets]
  rw [inet6ChksumPseudo_eq_zero (by omega),hq,summed,total_field ha,hfill,
    inet6ChksumPseudo_toNat h,← hp,← add_assoc]
  exact canon_fill _

theorem inet6ChksumPseudo_of_split (o : HostOrder) (src dest : IpAddr)
    (hv : ipAddrIsV4comp src = ipAddrIsV4comp dest) (proto : BitVec 8) (protoLen : BitVec 32)
    (data : List UInt8) (h : data.length ≤ 65535) (p : List (List UInt8)) (hp : p.flatten = data) :
    o.htons (inet6ChksumPseudo o p src dest proto protoLen).toNat =
        65535 - onesSum (pseudoHeader src dest proto protoLen ++ halfwords data) ∧
      ∀ (a b : List UInt8) (q : List (List UInt8)), a.length % 2 = 0 → data = a ++ 0 :: 0 :: b →
        q.flatten = a ++ (o.bytes (inet6ChksumPseudo o p src dest proto protoLen) ++ b) →
        inet6ChksumPseudo o q src dest proto protoLen = 0 := by
  subst hp
  constructor
  · rw [inet6ChksumPseudo_toNat h,summed_eq hv,onesSum_eq (List.forall_mem_append.mpr
      ⟨pseudoHeader_lt,halfwords_lt _⟩)]
  · intro a b q ha hdata hq
    have hfield : a ++ 0 :: 0 :: b = a ++ (o.bytes 0 ++ b) := by
      cases o <;> rfl
    exact inet6ChksumPseudo_fill h ha (hdata.trans hfield) rfl hq

theorem inet6ChksumPseudo_of_split_example :
    HostOrder.little.htons (inet6ChksumPseudo .little [[0, 0, 7], [], [1]] (fun _ => 1) (fun _ => 2)
        17 4).toNat =
        65535 - onesSum (pseudoHeader (fun _ => 1) (fun _ => 2) 17 4 ++ halfwords [0, 0, 7, 1]) ∧
      ∀ (a b : List UInt8) (q : List (List UInt8)), a.length % 2 = 0 → [0, 0, 7, 1] = a ++ 0 :: 0 :: b →
        q.flatten = a ++ (HostOrder.little.bytes (inet6ChksumPseudo .little [[0, 0, 7], [], [1]]
          (fun _ => 1) (fun _ => 2) 17 4) ++ b) →
        inet6ChksumPseudo .little q (fun _ => 1) (fun _ => 2) 17 4 = 0 :=
  inet6ChksumPseudo_of_split .little (fun _ => 1) (fun _ => 2) (by decide) 17 4 [0, 0, 7, 1]
    (by decide) [[0, 0, 7], [], [1]] rfl

end Pseudo

end ViewOS.Lwip.Inet
