import BATorrent.Downloads.HttpDownload.Integrity
import BATorrent.Ipc.MediaFeed.Refusal
import BATorrent.Ipc.MediaFeed.Window
import BATorrent.Ipc.SandboxedRead
import BATorrent.Ipc.FrameRing.Safe
import BATorrent.Ipc.EngineWire.Bounds
import BATorrent.Torrent.SessionConfig
import BATorrent.Torrent.SessionResume
import BATorrent.Ipc.RowCommand.Reached
import BATorrent.Ipc.StreamMap.Matching
import BATorrent.Ipc.StreamMap.Churn.Verified
import BATorrent.Torrent.NetworkSettings.Binding
import BATorrent.Torrent.NetworkSettings.Privacy
import BATorrent.Services.Vpn.Release
import BATorrent.Services.Vpn.Closed
import BATorrent.Torrent.Pausing.Cap
import BATorrent.Torrent.Pausing.Owner
import BATorrent.Torrent.Pausing.KillSwitch
import BATorrent.Torrent.Pausing.Frozen
import BATorrent.Torrent.Library.Survives
import BATorrent.Torrent.Library.Finished
import BATorrent.Torrent.Library.Spared
import BATorrent.Torrent.ResumeFlush.Outstanding
import BATorrent.Torrent.PerTorrent.Metadata
import BATorrent.Torrent.PerTorrent.Removal
import BATorrent.Torrent.SpeedLimits
import BATorrent.Torrent.Streaming
import BATorrent.Torrent.Streaming.DeadlineWindow
import BATorrent.Ipc.Protocol.Draining
import BATorrent.Ipc.MediaFrame.RoundTrip
import BATorrent.Webui.WebServer.Throttle
import BATorrent.Webui.WebServer.Upload
import BATorrent.Webui.WebServer.Assembled
import BATorrent.Torrent.ContentLayout
import BATorrent.Torrent.MissingData.OneShot
import BATorrent.Services.AchievementWatch
import BATorrent.Services.ArchiveExtractor.DeleteAfter
import BATorrent.Services.RssManager
import BATorrent.Webui.StreamServer.Guarded
import BATorrent.Webui.StreamConnection.Awake
import BATorrent.Ipc.SandboxedRead.Limits
import BATorrent.Bridges.SettingsBridge
import BATorrent.Bridges.SessionBridge.Commands
import BATorrent.Bridges.GameInstall.AtMostOne
import BATorrent.Bridges.RunningGames.Credited
import BATorrent.Bridges.PosterModel
import BATorrent.Downloads.HttpDownloadManager
import BATorrent.Downloads.RangePlan
import BATorrent.Bridges.LibraryModel.Rebuilt
import BATorrent.Services.Debrid.Own
import BATorrent.Services.MediaSniff
import BATorrent.Services.MetadataResolver.Stranded
import BATorrent.Services.MetadataResolver.Serial
import BATorrent.Services.MetadataResolver.Honoured
import BATorrent.Services.SettingsBackup
import BATorrent.Batwg.Socks.Datagram
import BATorrent.Services.AssText.Shown
import BATorrent.Services.DiscordRpc.Whole
import BATorrent.Services.DiscoverySearch
import BATorrent.Services.DiscoveryService.Session
import BATorrent.Services.FileGroups.Partition
import BATorrent.Services.GeoIpDb
import BATorrent.Services.AchievementLedger.Merged
import BATorrent.Services.ArchiveScan
import BATorrent.Services.SubtitleParser.Law
import BATorrent.Services.SubtitleSearch
import BATorrent.Services.SubtitleZip.Exact
import BATorrent.Services.TrackerScrape.Once
import BATorrent.Services.Updater.Picked
import BATorrent.Torrent.FileTree.Faithful
import BATorrent.Torrent.Totals.Conserved
import BATorrent.Lib.PathForest
import BATorrent.Batwg.Conf.Agreed
import BATorrent.Services.MkvChapters.Decoded
import BATorrent.Services.Logger.Rotation
import BATorrent.Services.Qrcodegen.Reader
