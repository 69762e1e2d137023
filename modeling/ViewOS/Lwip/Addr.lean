import Mathlib.Data.Fin.VecNotation
import Mathlib.Data.Fintype.Pi
import Mathlib.Tactic.FinCases

namespace ViewOS.Lwip

-- struct ip_addr, each word as ntohl reads it.
abbrev IpAddr := Fin 4 → BitVec 32

def w0 : Fin 4 := ⟨0, by decide⟩

def w1 : Fin 4 := ⟨1, by decide⟩

def w2 : Fin 4 := ⟨2, by decide⟩

def w3 : Fin 4 := ⟨3, by decide⟩

def ipAddrAny : IpAddr := fun _ => 0

def ip64Prefix : BitVec 32 := 0xffff

def ipAddrMaskcmp (addr1 addr2 mask : IpAddr) : Bool :=
  (addr1 w0 &&& mask w0) = (addr2 w0 &&& mask w0) ∧ (addr1 w1 &&& mask w1) = (addr2 w1 &&& mask w1) ∧
    (addr1 w2 &&& mask w2) = (addr2 w2 &&& mask w2) ∧ (addr1 w3 &&& mask w3) = (addr2 w3 &&& mask w3)

def ipAddrCmp (addr1 addr2 : IpAddr) : Bool :=
  addr1 w0 = addr2 w0 ∧ addr1 w1 = addr2 w1 ∧ addr1 w2 = addr2 w2 ∧ addr1 w3 = addr2 w3

def ipAddrSet (src : Option IpAddr) : IpAddr := src.getD ipAddrAny

def ipAddrSetMask (src mask : IpAddr) : IpAddr := fun i => src i &&& mask i

def ipAddrIsany (addr : IpAddr) : Bool :=
  (addr w0 ||| addr w1 ||| addr w3) = 0 ∧ (addr w2 = 0 ∨ addr w2 = ip64Prefix)

def ipAddrIsmulticast (addr : IpAddr) : Bool := addr w0 >>> 24 = 0xff

def ipAddrIslinkscope (addr : IpAddr) : Bool := addr w0 = 0xfe800000 ∧ addr w1 = 0

def ipAddrIsV4comp (addr : IpAddr) : Bool := addr w0 = 0 ∧ addr w1 = 0 ∧ addr w2 = ip64Prefix

-- The test of ip_addr_list_maskfind on one element.
def maskfindHit (addr ipaddr netmask : IpAddr) : Bool :=
  ipAddrMaskcmp ipaddr addr netmask && (ipAddrIslinkscope ipaddr == ipAddrIslinkscope addr)

theorem ipAddrCmp_iff {addr1 addr2 : IpAddr} : ipAddrCmp addr1 addr2 = true ↔ addr1 = addr2 := by
  rw [ipAddrCmp,decide_eq_true_iff]
  constructor
  · rintro ⟨h0,h1,h2,h3⟩
    funext i
    fin_cases i
    · exact h0
    · exact h1
    · exact h2
    · exact h3
  · rintro rfl
    exact ⟨rfl,rfl,rfl,rfl⟩

end ViewOS.Lwip
