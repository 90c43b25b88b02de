import Shim.Sbat.LevelErrors
import Shim.Sbat.Monotone
import Shim.Http.Remote
import Shim.Hooks.Gate
import Shim.Hooks.Table
import Shim.Keyless.Extract
import Shim.Trust.Order
import Shim.Pe.Permissions
import Shim.Pe.Reloc
import Shim.MokManager.Honest
import Shim.MokManager.Exact
import Shim.Mok.ConfigTable
import Shim.Mok.Mirror
import Shim.Auth.Membership
import Shim.Auth.Walkers
import Shim.Pe.Stream
import Shim.Keyless.Records
import Shim.Pe.SbatSection
import Shim.Http.Response
import Shim.Http.Interfaces
import Shim.Fallback.Idempotent
import Shim.Efi.EnrollHash
import Shim.LoadOptions.OptionalData
import Shim.Trust.CertFile
import Shim.Mok.MirrorReads
import Shim.Trust.RevocationsFile
import Shim.Sbat.Ssp
import Shim.Sbat.CsvReads
import Shim.Sbat.Formats
import Shim.MokManager.Prompts
import Shim.Hooks.SecurityPolicy
import Shim.MokManager.KeyListReads
import Shim.LoadOptions.ImagePath
import Shim.LoadOptions.Split
import Shim.Fallback.Masked
import Shim.Fallback.BootCsv
import Shim.Fallback.BootOrder
import Shim.Tpm.Measure
import Shim.MokManager.PasswordCrypt
import Shim.Sbat.Candidate
import Shim.Http.NextUri
import Shim.Netboot.Dhcp6
import Shim.Console.Select
import Shim.Common.Ownership
import Shim.Keyless.Blobs
import Shim.Keyless.SignedAttributes
import Shim.Netboot.Dhcp4
import Shim.Netboot.Ip6
import Shim.Common.OnesComplement
import Shim.Common.Write
import Shim.Pe.PostProcess
import Shim.Sbat.Tokens
import Shim.Common.Cursor
import Shim.Mok.FullData
import Shim.MokManager.Menu
import Shim.MokManager.MenuSafety
import Shim.MokManager.MenuRuns
import Shim.MokManager.AuthBuffer
import Shim.Fallback.Directory
import Shim.Fallback.Boots
import Shim.File.Listing
import Shim.File.Selector
import Shim.MokManager.LineInput
