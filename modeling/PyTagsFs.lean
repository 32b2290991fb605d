import PyTagsFs.Basic
import PyTagsFs.PathText
import PyTagsFs.TokenExchange
import PyTagsFs.OpenFiles
import PyTagsFs.Truncation
import PyTagsFs.Unique
import PyTagsFs.Values
import PyTagsFs.ValuesLaws
import PyTagsFs.PathStore
import PyTagsFs.PathStoreLemmas
import PyTagsFs.PathStoreInvariant
import PyTagsFs.PathStoreAdd
import PyTagsFs.PathStoreRemove
import PyTagsFs.EndPoints
import PyTagsFs.RenameInPlace
import PyTagsFs.StackModel
import PyTagsFs.Pattern
import PyTagsFs.Regex
import PyTagsFs.SplitRoundTrip
import PyTagsFs.ValuesDelta
import PyTagsFs.SourceTree
import PyTagsFs.SourceTreeRep
import PyTagsFs.Stratified
import PyTagsFs.RenamePath
import PyTagsFs.Reachable
import PyTagsFs.RenameValues
import PyTagsFs.Deferred
import PyTagsFs.EntriesCache
