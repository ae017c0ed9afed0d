import Mathlib.Data.Finmap

/-! The messages of `proto/common.proto` and `proto/management_service.proto` that
admission reads or writes. An absent sub-message is `none`; an enumeration is open,
so a decoded field may hold a code outside the declared ones. Fields that no
modelled function uses (catalog, database, table, version, column type) are left out. -/
namespace Leibrix.Proto

-- `map<string, string>`: iteration order is not part of the value.
abbrev DimensionValues := Finmap fun _ : String => String

structure Timestamp where
  seconds : Int64
  nanos : Int32
deriving DecidableEq

def Timestamp.Valid (ts : Timestamp) : Prop :=
  -- the range `google.protobuf.Timestamp` documents: years 1 to 9999
  -62135596800 ≤ ts.seconds.toInt ∧ ts.seconds.toInt ≤ 253402300799 ∧
    0 ≤ ts.nanos.toInt ∧ ts.nanos.toInt ≤ 999999999

instance (ts : Timestamp) : Decidable ts.Valid := inferInstanceAs (Decidable (_ ∧ _))

structure TimeRange where
  startInclusive : Option Timestamp
  endExclusive : Option Timestamp
deriving DecidableEq

structure EpochInfo where
  epochId : String
  timeRange : Option TimeRange
  dimensionValues : DimensionValues
deriving DecidableEq

inductive TimeUnit where
  | hour | day | week | month
  | unrecognized (code : Int32)
deriving DecidableEq

structure EpochGranularity where
  value : Int32
  unit : TimeUnit
deriving DecidableEq

inductive SourceGranularity where
  | unspecified | hour | day | week | month
  | unrecognized (code : Int32)
deriving DecidableEq

structure PartitionColumn where
  name : String
  sourceGranularity : Option SourceGranularity := none
deriving DecidableEq

structure TimeRangeFilter where
  startInclusive : Option Timestamp
  endExclusive : Option Timestamp
deriving DecidableEq

structure TimePartition where
  column : Option PartitionColumn
  filter : Option TimeRangeFilter
deriving DecidableEq

structure PartitionValues where
  values : List String
deriving DecidableEq

structure DimensionPartition where
  column : Option PartitionColumn
  values : Option PartitionValues
deriving DecidableEq

structure Partition where
  timePartition : Option TimePartition
  dimensionPartitions : List DimensionPartition
deriving DecidableEq

structure DataSource where
  partition : Option Partition
deriving DecidableEq

structure AdmitDatasetRequest where
  tenantId : String
  datasetId : String
  source : Option DataSource
  epochGranularity : Option EpochGranularity
deriving DecidableEq

inductive AdmitStatus where
  | unknown | accepted | rejected
deriving DecidableEq

structure AdmitDatasetResponse where
  -- `EpochInfoList` has one field, so a list stands for it
  status : AdmitStatus
  epochs : Option (List EpochInfo) := none
  message : String := ""
deriving DecidableEq

structure TenantQuota where
  tenantId : String
  maxDatasets : Int32
  maxEpochs : Int32
  maxStorageMb : Int64
deriving DecidableEq

inductive ResponseStatus where
  | unknown | success | error
deriving DecidableEq

structure CommonResponse where
  status : ResponseStatus
  message : String := ""
deriving DecidableEq

end Leibrix.Proto
