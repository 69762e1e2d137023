import ViewOS.Treepoch.Isolation
import ViewOS.Treepoch.Termination
import ViewOS.Hashtab.Exact
import ViewOS.Umdevmbr.Confined
import ViewOS.Umdevmbr.Chain
import ViewOS.Umbinfmt.Registrations
import ViewOS.Umfuse.Transfer
import ViewOS.Umfuse.Identity
import ViewOS.Select.Transparent
import ViewOS.Wdm.Restrict
import ViewOS.Lfd.Traverse
import ViewOS.Lfd.CloseOnce
import ViewOS.Misc.MountOptions
import ViewOS.Misc.Privilege
import ViewOS.Exec.RoundTrip
import ViewOS.Proc.Inherit
import ViewOS.Mmap.Mapped
import ViewOS.Mmap.WriteBack
import ViewOS.Lwip.Discipline
import ViewOS.Lwip.Delivery
import ViewOS.Lwip.RoundTrip
import ViewOS.Route.Longest
import ViewOS.Userfilter.Related
import ViewOS.Userfilter.Handshake
import ViewOS.Mainpoll.Rounds
import ViewOS.Select.Balance
import ViewOS.Misc.SetGet
import ViewOS.Misc.Access
import ViewOS.Misc.OptionTokens
import ViewOS.Exec.Credentials
import ViewOS.Umbinfmt.Matching
import ViewOS.Mmap.Offsets
import ViewOS.Mmap.Loading
import ViewOS.Viewfs.Truncate
import ViewOS.Viewfs.Hexstat
import ViewOS.Viewfs.Listing
import ViewOS.Umdevmbr.Sectors
import ViewOS.Ghosthash.Inverse
import ViewOS.Fdsysset.Sharing
import ViewOS.Route.Pool
import ViewOS.Lwip.Bounds
import ViewOS.Lwip.Tiling6
import ViewOS.Lwip.AddrRing
import ViewOS.Lwip.Lifetime
import ViewOS.Lwip.RouterAdvert
import ViewOS.Lwip.Dad
import ViewOS.Lwip.Timeouts
import ViewOS.Userfilter.Adjust
import ViewOS.Userfilter.Match
import ViewOS.Userfilter.Ports
import ViewOS.Userfilter.Hooks
import ViewOS.Fat.Entry
import ViewOS.Kmview.Alloc
import ViewOS.Purelibc.Freopen
import ViewOS.Purelibc.Dir
import ViewOS.Rsc.ParseArgs
import ViewOS.Rsc.Aconv
import ViewOS.Fat.Lfn
import ViewOS.Rsc.Pollfd
import ViewOS.Rsc.EventMonitor
import ViewOS.Rsc.Subscribe
