/-
Module: GraphEngine.Model.Rebuild
Layer: Model
Purpose: The life of a partition node's index: a first build before anything is
  served, then a rebuild at every tick that replaces the served generation when
  it succeeds.
Trusted boundary: the ticks of the interval timer and the clock are parameters;
  metrics and logs are left out
Main exports: bootstrap, periodicRebuildLoop
-/
import GraphEngine.Model.Builder

namespace GraphEngine

/-- What a tick finds: the tables as they are then, and the time. -/
structure RebuildTick where
  reader : IcebergReader (Except StorageError)
  nowUnixMs : Int

/-- The first build; nothing is served unless it succeeds. -/
def bootstrap (builder : IcebergIndexBuilder (Except StorageError))
    (partition : PartitionId) (labels : List Label) (nowUnixMs : Int) :
    Except StorageError IndexGeneration :=
  builder.build partition labels nowUnixMs

/-- The generation served after the ticks.  A failed rebuild keeps the previous
one. -/
def periodicRebuildLoop (schema : Schema) (partitioning : Partitioning)
    (partition : PartitionId) (labels : List Label) :
    IndexGeneration → List RebuildTick → IndexGeneration
  | served, [] => served
  | served, tick :: later =>
      match IcebergIndexBuilder.build
        ⟨tick.reader, schema, partitioning⟩ partition labels tick.nowUnixMs with
      | .ok generation =>
          periodicRebuildLoop schema partitioning partition labels generation later
      | .error _ => periodicRebuildLoop schema partitioning partition labels served later

end GraphEngine
