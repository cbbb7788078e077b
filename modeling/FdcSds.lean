import FdcSds.Disk.Writ
import FdcSds.Disk.Reconnect
import FdcSds.Fdc.Refinement
import FdcSds.Fdc.Detach
import FdcSds.Net.TnfsServer
import FdcSds.Net.Retransmit
import FdcSds.Config.Consoles
import FdcSds.Config.Mounts
import FdcSds.Config.Batches
import FdcSds.Config.Unmounts
import FdcSds.Disk.Writers
import FdcSds.Disk.Lookout
import FdcSds.Disk.Durability
import FdcSds.Disk.Jobs
import FdcSds.Net.Accounting
import FdcSds.Net.Answers
import FdcSds.Net.Jail
import FdcSds.Net.Truncation
import FdcSds.Net.Copy
import FdcSds.Cli.Telnet
import FdcSds.Cli.Nesting
import FdcSds.Fdc.Corruption
import FdcSds.Fdc.Loopback
import FdcSds.Net.Buffers
import FdcSds.Net.Opening
import FdcSds.Sd.Paths
import FdcSds.Cli.Wildcard
import FdcSds.Net.Urls
import FdcSds.Config.Persistence
import FdcSds.Ota.Updates
import FdcSds.Net.Offsets
import FdcSds.Ftp.Sessions
import FdcSds.Fdc.Verify
import FdcSds.Cli.Dump
import FdcSds.Cli.Printing
import FdcSds.Cli.Matching
import FdcSds.Cli.Settings
import FdcSds.Cli.Retained
import FdcSds.Cli.Directory
import FdcSds.Fdc.Rates
import FdcSds.Net.Http
import FdcSds.Ota.Network
