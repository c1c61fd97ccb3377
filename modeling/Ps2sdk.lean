import Ps2sdk.Usb.ScacheTransparent
import Ps2sdk.Pfs.JournalAtomic
import Ps2sdk.Pfs.ZoneSearch
import Ps2sdk.Usbd.OneReset
import Ps2sdk.Sif.Release
import Ps2sdk.FileXio.Read
import Ps2sdk.Erl.Safety
import Ps2sdk.Pfs.Attributes
import Ps2sdk.Pfs.Remove
import Ps2sdk.Pfs.Truncate
import Ps2sdk.Pfs.GrowRuns
import Ps2sdk.Apa.Transfer
import Ps2sdk.Apa.Free
import Ps2sdk.Apa.Names
import Ps2sdk.Fat.Grow
import Ps2sdk.Apa.CrashSafety
import Ps2sdk.Fat.BootSector
import Ps2sdk.Mc.ReadPage
import Ps2sdk.Mc.FlushSafe
import Ps2sdk.Mc.RootDir
import Ps2sdk.Alloc.Integrity
import Ps2sdk.Sif.Queue
import Ps2sdk.Erl.ReadErl
import Ps2sdk.Libc.Strtok
import Ps2sdk.Libc.Numbers
