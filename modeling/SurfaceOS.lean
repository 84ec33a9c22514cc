import SurfaceOS.Apps.CopyItem
import SurfaceOS.Apps.Grep
import SurfaceOS.Apps.Holding
import SurfaceOS.Apps.Lines
import SurfaceOS.Apps.Loading
import SurfaceOS.Apps.Taskmgr
import SurfaceOS.Apps.Volumes
import SurfaceOS.Boot.MemoryMap
import SurfaceOS.Cpu.AllocProcess
import SurfaceOS.Cpu.Bkl
import SurfaceOS.Cpu.Destroyed
import SurfaceOS.Cpu.FreeRange
import SurfaceOS.Cpu.InputLine
import SurfaceOS.Cpu.Loaded
import SurfaceOS.Cpu.Release
import SurfaceOS.Dev.GptTable
import SurfaceOS.Dev.Log
import SurfaceOS.Dev.Rtc
import SurfaceOS.Dev.Writeback
import SurfaceOS.Fat.DisplayNames
import SurfaceOS.Fat.Eviction
import SurfaceOS.Fat.Frame
import SurfaceOS.Fat.Shown
import SurfaceOS.Fat.Listing
import SurfaceOS.Fat.Renamed
import SurfaceOS.Fat.Walks
import SurfaceOS.Mm.Kheap
import SurfaceOS.Obj.Events
import SurfaceOS.Obj.Handles
import SurfaceOS.Obj.OpenFiles
import SurfaceOS.Pipe
import SurfaceOS.Sdk.Lock
import SurfaceOS.Sdk.MemoryRuns
import SurfaceOS.Usb.Xhci
import SurfaceOS.Vfs.Dates
import SurfaceOS.Vfs.Fileio
import SurfaceOS.Vfs.GetPath
import SurfaceOS.Vfs.Mounting
