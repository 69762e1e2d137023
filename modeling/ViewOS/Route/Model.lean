import ViewOS.Lwip.Addr

namespace ViewOS.Route

open Lwip

structure IpRoute where
  addr : IpAddr
  netmask : IpAddr
  nexthop : IpAddr
  netif : Nat
  flags : Int
  deriving DecidableEq

inductive Err where
  | ok
  | mem
  | conn
  deriving DecidableEq, Repr

def maskWider (x y : IpAddr) : BitVec 32 :=
  (y w0 &&& ~~~x w0) ||| (y w1 &&& ~~~x w1) ||| (y w2 &&& ~~~x w2) ||| (y w3 &&& ~~~x w3)

-- Comparing with a null next hop reads through the pointer.
def duplicate (addr netmask : IpAddr) (nexthop : Option IpAddr) (netif : Nat) :
    List IpRoute → Option Bool
  | [] => some false
  | dp :: l =>
    if !ipAddrCmp dp.addr addr || !ipAddrCmp dp.netmask netmask then
      duplicate addr netmask nexthop netif l
    else
      match nexthop with
      | none => none
      | some hop =>
        if !ipAddrCmp dp.nexthop hop && dp.netif != netif then
          duplicate addr netmask nexthop netif l
        else some true

def ipRouteListAdd (l : List IpRoute) (mem : Bool) (addr netmask : IpAddr) (nexthop : Option IpAddr)
    (netif : Nat) (flags : Int) : Option (Err × List IpRoute) :=
  if !mem then some (.mem, l)
  else
    match duplicate addr netmask nexthop netif l with
    | none => none
    | some true => some (.conn, l)
    | some false =>
      let el := ⟨ipAddrSetMask addr netmask, netmask, ipAddrSet nexthop, netif, flags⟩
      some (.ok, l.orderedInsert (fun el dp => maskWider dp.netmask el.netmask ≠ 0) el)

def deletes (addr : IpAddr) (netmask nexthop : Option IpAddr) (netif : Nat) (dp : IpRoute) : Bool :=
  ipAddrCmp dp.addr addr && netmask.all (ipAddrCmp dp.netmask) &&
    (ipAddrCmp dp.nexthop (ipAddrSet nexthop) || dp.netif == netif)

def ipRouteListDel (l : List IpRoute) (addr : IpAddr) (netmask nexthop : Option IpAddr) (netif : Nat) :
    Err × List IpRoute :=
  if l.any (deletes addr netmask nexthop netif) then (.ok, l.eraseP (deletes addr netmask nexthop netif))
  else (.conn, l)

def ipRouteListDelnetif (l : List IpRoute) (netif : Option Nat) : List IpRoute :=
  match netif with
  | none => l
  | some netif => l.filter fun dp => dp.netif != netif

def IpRoute.hop (dp : IpRoute) (addr : IpAddr) : IpAddr :=
  if ipAddrIsany dp.nexthop then addr else dp.nexthop

def ipRouteFindpath (l : List IpRoute) (addr : IpAddr) : Option (Nat × IpAddr) :=
  (l.find? fun dp => ipAddrMaskcmp addr dp.addr dp.netmask).map fun dp => (dp.netif, dp.hop addr)

inductive Op where
  | add (mem : Bool) (addr netmask : IpAddr) (nexthop : Option IpAddr) (netif : Nat) (flags : Int)
  | del (addr : IpAddr) (netmask nexthop : Option IpAddr) (netif : Nat)
  | delnetif (netif : Option Nat)

def step (l : List IpRoute) : Op → Option (List IpRoute)
  | .add mem addr netmask nexthop netif flags =>
    (ipRouteListAdd l mem addr netmask nexthop netif flags).map Prod.snd
  | .del addr netmask nexthop netif => some (ipRouteListDel l addr netmask nexthop netif).2
  | .delnetif netif => some (ipRouteListDelnetif l netif)

end ViewOS.Route
