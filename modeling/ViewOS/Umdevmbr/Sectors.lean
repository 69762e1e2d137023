import Mathlib.Tactic.Common

namespace ViewOS.Umdevvd

abbrev Bytes := Nat → UInt8

def stdSectorsize : Nat := 512

structure Call where
  write : Bool
  pos : Nat
  len : Nat
  deriving DecidableEq

structure Io where
  disk : Bytes
  buf : Bytes
  pos : Nat
  off : Nat
  llen : Nat
  calls : List Call

def memcpy (dst : Bytes) (i : Nat) (src : Bytes) (j n : Nat) : Bytes := fun k =>
  if i ≤ k ∧ k < i + n then src (j + (k - i)) else dst k

def Io.advance (s : Io) (n : Nat) : Io :=
  { s with pos := s.pos + n, off := s.off + n, llen := s.llen - n }

-- VDRead into tbuf; writing also changes tbuf and puts it back with VDWrite.
def Io.sector (w : Bool) (s : Io) (toff tlen : Nat) : Io :=
  let base := s.pos - toff
  let tbuf := memcpy (fun _ => 0) 0 s.disk base stdSectorsize
  if w then
    let tbuf := memcpy tbuf toff s.buf s.off tlen
    { s with
      disk := memcpy s.disk base tbuf 0 stdSectorsize
      calls := s.calls ++ [⟨false, base, stdSectorsize⟩, ⟨true, base, stdSectorsize⟩] }
  else
    { s with
      buf := memcpy s.buf s.off tbuf toff tlen
      calls := s.calls ++ [⟨false, base, stdSectorsize⟩] }

def Io.whole (w : Bool) (s : Io) (tlen : Nat) : Io :=
  if w then
    { s with
      disk := memcpy s.disk s.pos s.buf s.off tlen
      calls := s.calls ++ [⟨true, s.pos, tlen⟩] }
  else
    { s with
      buf := memcpy s.buf s.off s.disk s.pos tlen
      calls := s.calls ++ [⟨false, s.pos, tlen⟩] }

def Io.head (w : Bool) (s : Io) : Io :=
  let toff := s.pos % stdSectorsize
  if toff ≠ 0 then
    let tlen := stdSectorsize - toff
    let tlen := if s.llen < tlen then s.llen else tlen
    (s.sector w toff tlen).advance tlen
  else s

def Io.middle (w : Bool) (s : Io) : Io :=
  let tlen := s.llen / stdSectorsize * stdSectorsize
  if tlen ≠ 0 then (s.whole w tlen).advance tlen else s

def Io.tail (w : Bool) (s : Io) : Io := if 0 < s.llen then s.sector w 0 s.llen else s

def Io.aligned (w : Bool) (s : Io) : Io :=
  if s.pos % stdSectorsize = 0 ∧ s.llen % stdSectorsize = 0 then s.whole w s.llen
  else ((s.head w).middle w).tail w

structure Vddisk where
  disk : Bytes
  size : Nat
  loff : size < 9223372036854775808
  sectors : size % stdSectorsize = 0
  rdonly : Bool

def toInt (len : Nat) : Int := (len : Int).bmod 4294967296

def alignedRead (disk : Bytes) (pos : Nat) (buf : Bytes) (len : Nat) : Int × Io :=
  (toInt len, Io.aligned false ⟨disk, buf, pos, 0, len, []⟩)

def alignedWrite (disk : Bytes) (pos : Nat) (buf : Bytes) (len : Nat) : Int × Io :=
  (toInt len, Io.aligned true ⟨disk, buf, pos, 0, len, []⟩)

def clamp (size pos len : Nat) : Nat × Nat :=
  let pos := if size < pos then size else pos
  (pos, if size < (pos + len) % 18446744073709551616 then size - pos else len)

def vdRead (d : Vddisk) (buf : Bytes) (len pos : Nat) : Int × Io :=
  let c := clamp d.size pos len
  if 0 < c.2 then alignedRead d.disk c.1 buf c.2 else (0, ⟨d.disk, buf, pos, 0, 0, []⟩)

def eacces : Int := 13

def vdWrite (d : Vddisk) (buf : Bytes) (len pos : Nat) : Int × Io :=
  if d.rdonly then (-eacces, ⟨d.disk, buf, pos, 0, 0, []⟩)
  else
    let c := clamp d.size pos len
    if 0 < c.2 then alignedWrite d.disk c.1 buf c.2 else (0, ⟨d.disk, buf, pos, 0, 0, []⟩)

def Vddisk.count (d : Vddisk) (len pos : Nat) : Nat := min len (d.size - pos)

def Call.Inside (size : Nat) (c : Call) : Prop :=
  c.pos % stdSectorsize = 0 ∧ c.len % stdSectorsize = 0 ∧ c.pos + c.len ≤ size

def Io.moved (w : Bool) (s : Io) (n : Nat) : Io :=
  if w then { s with disk := memcpy s.disk s.pos s.buf s.off n }
  else { s with buf := memcpy s.buf s.off s.disk s.pos n }

structure Moves (w : Bool) (size : Nat) (s s' : Io) (n : Nat) : Prop where
  llen : n ≤ s.llen
  state : ∃ calls, s' = { (s.moved w n).advance n with calls := s.calls ++ calls } ∧
    ∀ c ∈ calls, c.Inside size

variable {w : Bool} {size : Nat} {s s' s'' : Io} {n k : Nat}

theorem memcpy_memcpy (dst src : Bytes) (i j n k : Nat) :
    memcpy (memcpy dst i src j n) (i + n) src (j + n) k = memcpy dst i src j (n + k) := by
  funext x
  unfold memcpy
  split_ifs
  · congr 1
    omega
  all_goals first | rfl | omega

theorem memcpy_zero (dst src : Bytes) (i j : Nat) : memcpy dst i src j 0 = dst := by
  funext x
  exact if_neg (by omega)

theorem moved_zero (s : Io) : (s.moved w 0).advance 0 = s := by
  cases w <;> simp [Io.moved,Io.advance,memcpy_zero]

theorem Moves.refl (s : Io) : Moves w size s s 0 := by
  refine ⟨Nat.zero_le _,[],?_,nofun⟩
  rw [moved_zero,List.append_nil]

theorem Moves.trans (h : Moves w size s s' n) (h' : Moves w size s' s'' k) :
    Moves w size s s'' (n + k) := by
  obtain ⟨hn,calls,rfl,hin⟩ := h
  obtain ⟨hk,calls',rfl,hin'⟩ := h'
  refine ⟨?_,calls ++ calls',?_,List.forall_mem_append.mpr ⟨hin,hin'⟩⟩
  · have hlen : ((s.moved w n).advance n).llen = s.llen - n := by cases w <;> rfl
    have hk' : k ≤ s.llen - n := hlen ▸ hk
    omega
  · cases w <;> simp [Io.moved,Io.advance,memcpy_memcpy,Nat.add_assoc,Nat.sub_sub]

theorem Moves.pos_llen (h : Moves w size s s' n) : s'.pos = s.pos + n ∧ s'.llen = s.llen - n := by
  obtain ⟨-,calls,rfl,-⟩ := h
  cases w <;> exact ⟨rfl,rfl⟩

theorem memcpy_sector_out (disk buf : Bytes) {pos base toff off n : Nat} (hpos : pos = base + toff)
    (hn : toff + n ≤ stdSectorsize) :
    memcpy buf off (memcpy (fun _ => 0) 0 disk base stdSectorsize) toff n = memcpy buf off disk pos n := by
  funext x
  unfold memcpy
  split_ifs
  · congr 1
    omega
  all_goals first | rfl | omega

theorem memcpy_sector_in (disk buf : Bytes) {pos base toff off n : Nat} (hpos : pos = base + toff)
    (hn : toff + n ≤ stdSectorsize) :
    memcpy disk base (memcpy (memcpy (fun _ => 0) 0 disk base stdSectorsize) toff buf off n) 0
      stdSectorsize = memcpy disk pos buf off n := by
  funext x
  unfold memcpy
  split_ifs
  all_goals first | rfl | omega | (congr 1; omega)

theorem sector_bounds {pos toff : Nat} (htoff : toff = pos % stdSectorsize)
    (hsize : size % stdSectorsize = 0) (hpos : pos < size) :
    pos = pos - toff + toff ∧ (pos - toff) % stdSectorsize = 0 ∧ pos - toff + stdSectorsize ≤ size := by
  unfold stdSectorsize at *
  omega

theorem sector_moves {toff : Nat} (htoff : toff = s.pos % stdSectorsize)
    (hn : toff + n ≤ stdSectorsize) (hlen : n ≤ s.llen) (hsize : size % stdSectorsize = 0)
    (hpos : s.pos < size) : Moves w size s ((s.sector w toff n).advance n) n := by
  obtain ⟨hbase,hzero,hend⟩ := sector_bounds htoff hsize hpos
  have hin : ∀ b, (⟨b, s.pos - toff, stdSectorsize⟩ : Call).Inside size := fun b =>
    ⟨hzero,Nat.mod_self _,hend⟩
  cases w with
  | false =>
    refine ⟨hlen,[⟨false, s.pos - toff, stdSectorsize⟩],?_,?_⟩
    · simp [Io.sector,Io.moved,Io.advance,memcpy_sector_out s.disk s.buf hbase hn]
    · simpa using hin false
  | true =>
    refine ⟨hlen,[⟨false, s.pos - toff, stdSectorsize⟩, ⟨true, s.pos - toff, stdSectorsize⟩],?_,?_⟩
    · simp [Io.sector,Io.moved,Io.advance,memcpy_sector_in s.disk s.buf hbase hn]
    · simpa using ⟨hin false,hin true⟩

theorem whole_moves (hpos : s.pos % stdSectorsize = 0) (hn : n % stdSectorsize = 0)
    (hlen : n ≤ s.llen) (hend : s.pos + n ≤ size) :
    Moves w size s ((s.whole w n).advance n) n := by
  refine ⟨hlen,[⟨w, s.pos, n⟩],?_,by simpa using ⟨hpos,hn,hend⟩⟩
  cases w <;> simp [Io.whole,Io.moved,Io.advance]

structure Ready (size : Nat) (s : Io) : Prop where
  sectors : size % stdSectorsize = 0
  fits : s.pos + s.llen ≤ size

theorem Moves.ready (h : Moves w size s s' n) (hs : Ready size s) : Ready size s' := by
  obtain ⟨hpos,hllen⟩ := h.pos_llen
  have := h.llen
  have := hs.fits
  exact ⟨hs.sectors,by omega⟩

theorem head_moves (hs : Ready size s) (hlen : 0 < s.llen) : ∃ n, Moves w size s (s.head w) n ∧
    ((s.head w).llen = 0 ∨ (s.head w).pos % stdSectorsize = 0) := by
  have hfits := hs.fits
  by_cases htoff : s.pos % stdSectorsize = 0
  · rw [Io.head,if_neg (not_not.mpr htoff)]
    exact ⟨0,.refl s,Or.inr htoff⟩
  · rw [Io.head,if_pos htoff]
    dsimp only
    generalize htlen : (if s.llen < stdSectorsize - s.pos % stdSectorsize then s.llen
      else stdSectorsize - s.pos % stdSectorsize) = tlen
    have hmin : tlen ≤ s.llen ∧ s.pos % stdSectorsize + tlen ≤ stdSectorsize ∧
        (s.llen - tlen = 0 ∨ (s.pos + tlen) % stdSectorsize = 0) := by
      unfold stdSectorsize at htlen htoff ⊢
      split_ifs at htlen <;> omega
    have hm : Moves w size s ((s.sector w (s.pos % stdSectorsize) tlen).advance tlen) tlen :=
      sector_moves rfl hmin.2.1 hmin.1 hs.sectors (by omega)
    obtain ⟨hpos,hllen⟩ := hm.pos_llen
    rw [hpos,hllen]
    exact ⟨tlen,hm,hmin.2.2⟩

theorem middle_moves (hs : Ready size s) (hstart : s.llen = 0 ∨ s.pos % stdSectorsize = 0) :
    ∃ n, Moves w size s (s.middle w) n ∧ (s.middle w).llen < stdSectorsize ∧
      ((s.middle w).llen = 0 ∨ (s.middle w).pos % stdSectorsize = 0) := by
  have hfits := hs.fits
  rw [Io.middle]
  generalize htlen : s.llen / stdSectorsize * stdSectorsize = tlen
  have hfacts : tlen ≤ s.llen ∧ s.llen - tlen < stdSectorsize ∧ tlen % stdSectorsize = 0 ∧
      (s.llen - tlen = 0 ∨ (s.pos + tlen) % stdSectorsize = 0) ∧
      (tlen ≠ 0 → s.pos % stdSectorsize = 0) := by
    unfold stdSectorsize at *
    omega
  obtain ⟨hle,hshort,hmul,hstart',hpos⟩ := hfacts
  by_cases hz : tlen = 0
  · rw [if_neg (not_not.mpr hz)]
    rw [hz] at hshort
    exact ⟨0,.refl s,hshort,hstart⟩
  · rw [if_pos hz]
    have hm : Moves w size s ((s.whole w tlen).advance tlen) tlen :=
      whole_moves (hpos hz) hmul hle (by omega)
    obtain ⟨hpos',hllen⟩ := hm.pos_llen
    rw [hpos',hllen]
    exact ⟨tlen,hm,hshort,hstart'⟩

theorem tail_moves (hs : Ready size s) (hshort : s.llen < stdSectorsize)
    (hstart : s.llen = 0 ∨ s.pos % stdSectorsize = 0) :
    Moves w size s ((s.tail w).advance s.llen) s.llen := by
  have hfits := hs.fits
  by_cases hpos : 0 < s.llen
  · rw [Io.tail,if_pos hpos]
    have halign := hstart.resolve_left (Nat.pos_iff_ne_zero.mp hpos)
    exact sector_moves halign.symm (by omega) (Nat.le_refl _) hs.sectors (by omega)
  · rw [Io.tail,if_neg hpos,show s.llen = 0 by omega]
    exact .refl s

theorem aligned_moves (hs : Ready size s) (hlen : 0 < s.llen) :
    ∃ k, Moves w size s ((s.aligned w).advance k) s.llen := by
  by_cases hall : s.pos % stdSectorsize = 0 ∧ s.llen % stdSectorsize = 0
  · rw [Io.aligned,if_pos hall]
    exact ⟨s.llen,whole_moves hall.1 hall.2 (Nat.le_refl _) hs.fits⟩
  · rw [Io.aligned,if_neg hall]
    obtain ⟨n,hhead,hstart⟩ := head_moves (w := w) hs hlen
    obtain ⟨k,hmid,hshort,hstart'⟩ := middle_moves (w := w) (hhead.ready hs) hstart
    have htail := tail_moves (w := w) (hmid.ready (hhead.ready hs)) hshort hstart'
    have hmoves := (hhead.trans hmid).trans htail
    have hsum : n + k + ((s.head w).middle w).llen = s.llen := by
      have := (hhead.trans hmid).pos_llen.2
      have := (hhead.trans hmid).llen
      omega
    exact ⟨_,hsum ▸ hmoves⟩

theorem clamp_eq {pos len : Nat} (d : Vddisk) (hlen : len < 2147483648) :
    clamp d.size pos len = (min pos d.size, d.count len pos) := by
  have hloff := d.loff
  have hpos : (if d.size < pos then d.size else pos) = min pos d.size := by
    split_ifs <;> omega
  have hmod : (min pos d.size + len) % 18446744073709551616 = min pos d.size + len :=
    Nat.mod_eq_of_lt (by omega)
  simp only [clamp,hpos,hmod]
  refine congrArg _ ?_
  rw [Vddisk.count]
  split_ifs <;> omega

theorem toInt_eq {n : Nat} (h : n < 2147483648) : toInt n = n :=
  Int.bmod_eq_of_le (by omega) (by omega)

theorem access_eq (d : Vddisk) (w : Bool) (buf : Bytes) {len : Nat} (hlen : len < 2147483648) (pos : Nat)
    {r : Int × Io} (hr : r = if 0 < (clamp d.size pos len).2 then
      (toInt (clamp d.size pos len).2, Io.aligned w ⟨d.disk, buf, (clamp d.size pos len).1, 0,
        (clamp d.size pos len).2, []⟩) else (0, ⟨d.disk, buf, pos, 0, 0, []⟩)) :
    r.1 = d.count len pos ∧ (∀ c ∈ r.2.calls, c.Inside d.size) ∧
      r.2.disk = (if w then memcpy d.disk pos buf 0 (d.count len pos) else d.disk) ∧
      r.2.buf = if w then buf else memcpy buf 0 d.disk pos (d.count len pos) := by
  rw [clamp_eq d hlen] at hr
  dsimp only at hr
  have hcount : d.count len pos = min len (d.size - pos) := rfl
  generalize d.count len pos = n at hr hcount ⊢
  have hlt : n < 2147483648 := by omega
  by_cases hpos : 0 < n
  · have hmin : min pos d.size = pos := by omega
    rw [if_pos hpos,hmin] at hr
    have hready : Ready d.size ⟨d.disk, buf, pos, 0, n, []⟩ := ⟨d.sectors,by dsimp only; omega⟩
    obtain ⟨k,-,calls,hstate,hin⟩ := aligned_moves (w := w) hready hpos
    have hcalls : (Io.aligned w ⟨d.disk, buf, pos, 0, n, []⟩).calls = calls :=
      (congrArg Io.calls hstate).trans (List.nil_append _)
    have hdisk := congrArg Io.disk hstate
    have hbuf := congrArg Io.buf hstate
    subst hr
    dsimp only
    rw [toInt_eq hlt,hcalls]
    refine ⟨rfl,hin,?_,?_⟩
    · refine hdisk.trans ?_
      cases w <;> rfl
    · refine hbuf.trans ?_
      cases w <;> rfl
  · obtain rfl : n = 0 := by omega
    rw [if_neg hpos] at hr
    subst hr
    cases w <;> simp [memcpy_zero]

theorem vd_byte_access (d : Vddisk) (buf : Bytes) {len : Nat} (hlen : len < 2147483648) (pos : Nat) :
    ((vdRead d buf len pos).1 = d.count len pos ∧
      (∀ c ∈ (vdRead d buf len pos).2.calls, c.Inside d.size) ∧
      (vdRead d buf len pos).2.disk = d.disk ∧
      ∀ i, (vdRead d buf len pos).2.buf i =
        if i < d.count len pos then d.disk (pos + i) else buf i) ∧
    (d.rdonly = false → (vdWrite d buf len pos).1 = d.count len pos ∧
      (∀ c ∈ (vdWrite d buf len pos).2.calls, c.Inside d.size) ∧
      ∀ i, (vdWrite d buf len pos).2.disk i =
        if pos ≤ i ∧ i < pos + d.count len pos then buf (i - pos) else d.disk i) := by
  constructor
  · obtain ⟨hrv,hcalls,hdisk,hbuf⟩ := access_eq d false buf hlen pos (r := vdRead d buf len pos) rfl
    refine ⟨hrv,hcalls,hdisk,fun i => ?_⟩
    rw [hbuf,if_neg Bool.false_ne_true,memcpy]
    simp
  · intro hrw
    obtain ⟨hrv,hcalls,hdisk,-⟩ := access_eq d true buf hlen pos (r := vdWrite d buf len pos)
      (by rw [vdWrite,if_neg (by simp [hrw])]; rfl)
    refine ⟨hrv,hcalls,fun i => ?_⟩
    rw [hdisk,if_pos rfl,memcpy]
    simp

def oneSector : Vddisk where
  disk i := UInt8.ofNat i
  size := 512
  loff := by decide
  sectors := rfl
  rdonly := false

theorem oneSector_cut : (vdRead oneSector (fun _ => 0) 4 510).1 = (2 : Nat) ∧
    (vdWrite oneSector (fun _ => 0) 4 510).1 = (2 : Nat) := by
  have h := vd_byte_access oneSector (fun _ => 0) (show 4 < 2147483648 by decide) 510
  have hcount : oneSector.count 4 510 = 2 := by decide
  rw [hcount] at h
  exact ⟨h.1.1,(h.2 rfl).1⟩

end ViewOS.Umdevvd
