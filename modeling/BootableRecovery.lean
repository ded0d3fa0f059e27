import BootableRecovery.Adbbu.AdbStream
import BootableRecovery.Adbbu.Backup
import BootableRecovery.Adbbu.BackupRun
import BootableRecovery.Adbbu.BackupStream
import BootableRecovery.Adbbu.Restore
import BootableRecovery.Adbbu.RestoreBlocks
import BootableRecovery.Adbbu.RestoreRun
import BootableRecovery.Adbbu.GetBackupFiles
import BootableRecovery.Lib.Window
import BootableRecovery.Lib.Blocks
import BootableRecovery.Lib.BlockBytes
import BootableRecovery.Lib.Splice
import BootableRecovery.Lib.Text
import BootableRecovery.Otautil.RangeSet
import BootableRecovery.Otautil.RangeText
import BootableRecovery.Otautil.RangeFormat
import BootableRecovery.Otautil.RangeSplit
import BootableRecovery.Otautil.BlockMap
import BootableRecovery.Otautil.SortedRangeSet
import BootableRecovery.Otautil.SortedInsert
import BootableRecovery.FuseSideload.FuseProvider
import BootableRecovery.FuseSideload.FuseSideload
import BootableRecovery.FuseSideload.Immutability
import BootableRecovery.FuseSideload.ReadCorrect
import BootableRecovery.Gui.Utf8
import BootableRecovery.Gui.TerminalEngine
import BootableRecovery.Gui.TerminalRuns
import BootableRecovery.Gui.TerminalText
import BootableRecovery.Gui.TerminalResync
import BootableRecovery.Lib.Ring
import BootableRecovery.Lib.Logged
import BootableRecovery.Uncrypt.Uncrypt
import BootableRecovery.Uncrypt.CopyLoop
import BootableRecovery.Uncrypt.RoundTrip
import BootableRecovery.TwrpInstall.Asn1Decoder
import BootableRecovery.TwrpInstall.Package
import BootableRecovery.TwrpInstall.Verifier
import BootableRecovery.Twrp.Files
import BootableRecovery.Twrp.BackupFolder
import BootableRecovery.Twrp.DigestDriver
import BootableRecovery.Twrp.TarList
import BootableRecovery.Twrp.ExtractTar
import BootableRecovery.Twrp.Fstab
import BootableRecovery.Twrp.FstabMerge
import BootableRecovery.Twrp.FstabRuns
import BootableRecovery.Twrp.SplitDigest
import BootableRecovery.Twrp.BackupCount
import BootableRecovery.Twrp.BackupDivision
import BootableRecovery.Twrp.Partition
import BootableRecovery.Twrp.RestoreFiles
import BootableRecovery.Twrp.RunBackup
import BootableRecovery.Twrp.RunRestore
import BootableRecovery.Applypatch.ImageChunk
import BootableRecovery.Applypatch.ZipModeImage
import BootableRecovery.Applypatch.SplitImages
import BootableRecovery.Applypatch.SplitLimit
import BootableRecovery.Applypatch.ImageModeImage
import BootableRecovery.Applypatch.ImagePatch
import BootableRecovery.Applypatch.PatchChunk
import BootableRecovery.Applypatch.PatchOutput
import BootableRecovery.Applypatch.ImageModePatch
import BootableRecovery.Applypatch.ZipModePatch
import BootableRecovery.Bootloader.BootloaderMessage
import BootableRecovery.Bootloader.GetArgs
import BootableRecovery.Uncrypt.SetupBcb
import BootableRecovery.Lib.OrderedMap
import BootableRecovery.Twrp.OpenRecoveryScript
import BootableRecovery.Twrp.InfoManager
import BootableRecovery.Twrp.SettingsRoundTrip
import BootableRecovery.Twrp.LoadRecords
import BootableRecovery.Twrp.DataManager
import BootableRecovery.Twrp.DataStoreLaws
import BootableRecovery.Twrp.WipeData
import BootableRecovery.Twrp.BackupPaths
import BootableRecovery.Lib.Heap
import BootableRecovery.Lib.Mirror
import BootableRecovery.Mtp.MtpStorage
import BootableRecovery.Mtp.ObjectStore
import BootableRecovery.Mtp.DeleteFile
import BootableRecovery.Mtp.StoreRuns
import BootableRecovery.Mtp.StoreBreaks
import BootableRecovery.Mtp.StorageIndex
import BootableRecovery.Mtp.StorageSteps
import BootableRecovery.Mtp.Device
import BootableRecovery.Mtp.DeviceRuns
import BootableRecovery.Mtp.DeviceEvents
import BootableRecovery.Mtp.DeviceListing
import BootableRecovery.Updater.Commands
import BootableRecovery.Updater.BlockImg
import BootableRecovery.Updater.SourceAssembly
import BootableRecovery.Updater.CommandExecute
import BootableRecovery.Updater.CommandTokens
import BootableRecovery.Updater.CommandAgreement
import BootableRecovery.Updater.SourceBounds
import BootableRecovery.Updater.ParsedSource
import BootableRecovery.UpdateVerifier.ReadBlocks
import BootableRecovery.Updater.RangeSink
import BootableRecovery.Twrp.TarWrite
import BootableRecovery.Edify.Expr
import BootableRecovery.Edify.NullPropagation
import BootableRecovery.Twrp.DigestStream
import BootableRecovery.Gui.PatternPassword
import BootableRecovery.Applypatch.FreeCache
import BootableRecovery.Gui.AddLines
import BootableRecovery.Gui.ScrollList
import BootableRecovery.Lib.Scanner
import BootableRecovery.Edify.Lexer
import BootableRecovery.Edify.StringLiteral
import BootableRecovery.Edify.Parser
import BootableRecovery.Edify.Lexemes
import BootableRecovery.Edify.Spans
import BootableRecovery.Twrp.ArchiveNames
import BootableRecovery.Lib.Cursor
import BootableRecovery.Gui.TextInput
import BootableRecovery.Gui.MessageText
import BootableRecovery.Twrp.ProgressTracking
import BootableRecovery.Twrp.FsFlags
import BootableRecovery.Twrp.TwFlagItems
import BootableRecovery.Updater.SetMetadata
import BootableRecovery.Twrp.BackupArithmetic
import BootableRecovery.Twrp.FstabBuffer
import BootableRecovery.Lib.Computes
import BootableRecovery.Gui.ThemeXml
import BootableRecovery.Gui.PageTemplates
import BootableRecovery.Gui.ThemeLoading
import BootableRecovery.Twrp.HotPlug
import BootableRecovery.Twrp.HotPlugRuns
import BootableRecovery.Lib.WorkDir
import BootableRecovery.Twrp.CleanBackup
import BootableRecovery.Twrp.CleanBackupRuns
import BootableRecovery.Lib.Collapse
import BootableRecovery.Applypatch.MergeChunks
import BootableRecovery.Lib.ViewReader
import BootableRecovery.TwrpInstall.Asn1Windows
import BootableRecovery.TwrpInstall.Asn1Signature
import BootableRecovery.RecoveryUi.TextMenu
import BootableRecovery.Twrp.RestoreScript
import BootableRecovery.Lib.Search
import BootableRecovery.Gui.MultiSelect
import BootableRecovery.Lib.StrictWeak
import BootableRecovery.Gui.FileSort
import BootableRecovery.Lib.Markers
import BootableRecovery.Gui.ParseText
import BootableRecovery.Lib.Rounding
import BootableRecovery.Gui.SliderValue
import BootableRecovery.Lib.Records
import BootableRecovery.Libtar.ExtendedHeaders
import BootableRecovery.Libtar.ExtendedRoundTrip
import BootableRecovery.Lib.Places
import BootableRecovery.Libtar.Header
import BootableRecovery.Libtar.HeaderLaws
import BootableRecovery.Libtar.HeaderRoundTrip
