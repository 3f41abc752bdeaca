import RelationalStore.Client
import RelationalStore.Schema.Resolution
import RelationalStore.Proofs.MapEntries
import RelationalStore.Proofs.TableIndexes
import RelationalStore.Proofs.TableCalls
import RelationalStore.Proofs.SchemaResolution
import RelationalStore.Proofs.ScopedReads
import RelationalStore.Proofs.ScopedQueries
import RelationalStore.Proofs.ClientRuns
import RelationalStore.Proofs.ScopedDelete
import RelationalStore.Proofs.ScopedRequests
import RelationalStore.Proofs.TableRestore
import RelationalStore.Proofs.UndoLog
import RelationalStore.Proofs.StoredRows
import RelationalStore.Proofs.WriteInvariants
import RelationalStore.Proofs.NestedWrites
import RelationalStore.Proofs.RequestWrites
import RelationalStore.Proofs.DeclaredKinds
import RelationalStore.Proofs.Isolation
import RelationalStore.Proofs.FailedRequests
import RelationalStore.Proofs.LinkedRows
import RelationalStore.Proofs.Cascades
import RelationalStore.Proofs.DeletionState
import RelationalStore.Proofs.DeletionRuns
import RelationalStore.Proofs.DeletionRequests
import RelationalStore.Proofs.ScopedWrites
import RelationalStore.Proofs.PayloadParts
import RelationalStore.Proofs.RetainedRows
import RelationalStore.Proofs.SoundKeys
import RelationalStore.Proofs.WriteRuns
import RelationalStore.Proofs.CreationRuns
import RelationalStore.Proofs.UpdateRuns
import RelationalStore.Proofs.SavedRequests
import RelationalStore.Proofs.UpdatedRows
import RelationalStore.Proofs.SoundReferences
import RelationalStore.Proofs.KeptRows
import RelationalStore.Proofs.CompleteRows
import RelationalStore.Proofs.CompleteWrites
import RelationalStore.Proofs.ConformingRows
import RelationalStore.Proofs.MatchingRows
import RelationalStore.Proofs.KindedTables
import RelationalStore.Proofs.StoreRuns
import RelationalStore.Proofs.AbortedTransactions
import RelationalStore.Proofs.LoneTransactions
import RelationalStore.Proofs.Histories
import RelationalStore.Proofs.SerialRuns
import RelationalStore.Proofs.FilterSets
import RelationalStore.Proofs.RowOrder
import RelationalStore.Proofs.ReadPipeline
import RelationalStore.Proofs.LoadedRelations
import RelationalStore.Proofs.UniqueRows
import RelationalStore.Proofs.SelectorEqualities
import RelationalStore.Proofs.UniqueSelectors
import RelationalStore.Proofs.UniqueGroups
import RelationalStore.Proofs.SchemaLinks
import RelationalStore.Proofs.RelatedRow
import RelationalStore.Proofs.EqualReads
import RelationalStore.Proofs.PairedTables
import RelationalStore.Proofs.PairedWrites
import RelationalStore.Proofs.PairedRequests
import RelationalStore.Proofs.JsonText
import RelationalStore.Proofs.ReloadedTables
import RelationalStore.Proofs.DirectoryFiles
import RelationalStore.Proofs.OpenedDirectories
import RelationalStore.Proofs.CommittedRows
import RelationalStore.Proofs.PairedStores
import RelationalStore.Proofs.PairedClients
import RelationalStore.Proofs.StorableRows
import RelationalStore.Proofs.StoredRuns
import RelationalStore.Proofs.StagedFiles
import RelationalStore.Proofs.UpgradedStores
import RelationalStore.Proofs.PublishedTables
import RelationalStore.Proofs.RewrittenRows
import RelationalStore.Proofs.Migrations
import RelationalStore.Proofs.SuppliedTransactions
import RelationalStore.Proofs.WiderReads
import RelationalStore.Proofs.WiderWrites
import RelationalStore.Proofs.RecordedWrites
import RelationalStore.Proofs.RecordedRequests
import RelationalStore.Proofs.RecordedDeletions
import RelationalStore.Proofs.DispatchedChanges
import RelationalStore.Proofs.RenewedRows
import RelationalStore.Proofs.DeletionDepth
import RelationalStore.Proofs.SingleDeletions
import RelationalStore.Proofs.DeletionOutcomes
import RelationalStore.Proofs.RenamedEntities
import RelationalStore.Proofs.FocusedTables
import RelationalStore.Proofs.ChildKeys
import RelationalStore.Proofs.RegroupedRows
import RelationalStore.Proofs.RegroupedCreations
import RelationalStore.Proofs.RelatedKeys
import RelationalStore.Proofs.ReversedOrders
import RelationalStore.Proofs.RelationViews
import RelationalStore.Proofs.JoinedRows
import RelationalStore.Proofs.LastingLinks
import RelationalStore.Proofs.FieldTests
import RelationalStore.Proofs.PatchedRows
import RelationalStore.Proofs.AddressedFields
import RelationalStore.Proofs.RaisedErrors
import RelationalStore.Proofs.MendedQueries
import RelationalStore.Proofs.ReportedNames
import RelationalStore.Proofs.SupportedWrites
import RelationalStore.Proofs.IncrementedKeys
import RelationalStore.Proofs.NumberedBatches
import RelationalStore.Proofs.LocatedFaults
import RelationalStore.Proofs.LoweredTexts
import RelationalStore.Proofs.LostTables
import RelationalStore.Proofs.DecimalText
import RelationalStore.Proofs.InstantText
import RelationalStore.Proofs.ShownValues
import RelationalStore.Proofs.CommensurableKeys
import RelationalStore.Proofs.IntegerFields
