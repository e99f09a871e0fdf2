import IscsiS3.S3.PartialWrites
import IscsiS3.Splitting
import IscsiS3.S3.KeyNames
import IscsiS3.S3.Fleet
import IscsiS3.S3.Migration
import IscsiS3.WriteCache.Crash
import IscsiS3.WriteCache.FailedFlush
import IscsiS3.WriteCache.Eviction
import IscsiS3.WriteCache.Listing
import IscsiS3.WriteCache.Deletion
import IscsiS3.WriteCache.Sleepers
import IscsiS3.WriteCache.Discard
import IscsiS3.Cache.Recency
import IscsiS3.Cache.Concurrent
import IscsiS3.Admin.HalfMigrated
import IscsiS3.Admin.Wipe
import IscsiS3.Admin.Copy
import IscsiS3.S3.LegacyDeletes
import IscsiS3.S3.Collection
import IscsiS3.Admin.Reading
import IscsiS3.Admin.Isolation
import IscsiS3.Admin.Overlap
import IscsiS3.Admin.PrefixStats
import IscsiS3.Bottleneck
import IscsiS3.Iscsi.Writes
import IscsiS3.S3.Restore
